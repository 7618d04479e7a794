import CoinScript.Proofs.Machine.Encodings
import CoinScript.Proofs.Machine.Straight
import CoinScript.Proofs.Machine.Verdict
import CoinScript.Proofs.Sighash.Unlocking
import CoinScript.Proofs.Signature.Canonical
import CoinScript.Proofs.Signature.StrictForm
import CoinScript.Spend.PayToKeyHash
import CoinScript.Spend.Verify

/-!
# What is signed is accepted

Signing an input that is locked by the hash of a key and verifying it are two programs with little
in common.  The signer takes the digest from the source of the input and writes two pushes; the
verifier reads the pushes, runs two scripts and takes the digest from what is left of the lock, for
a transaction that by now has another unlocking script.  They meet in four points:

* the unlocking script is two instructions, and the lock is five (`scan_unlocking`, `scan_lock`);
* what the signer writes passes every check of encodings, whatever the flags are
  (`checkSignature_signatureElement`, `checkKey_compressed`);
* the signed part of the lock is the lock (`codeFor_lock`), which for the older digest needs that
  the signature is not by accident the hash of the key;
* the digest is the one that was signed (`digest_withUnlocking`).

Of the signature scheme only `Scheme.Serves` is assumed.
-/

namespace CoinScript

/-- The scheme signs a digest with a key: the signature is in range, its canonical twin is valid for
the public key, and the public key is read back from its compressed form. -/
structure Scheme.Serves (scheme : Scheme) (key : PrivateKey) (digest : Hash256) : Prop where
  signs : ∃ sig ∈ scheme.sign key digest, sig.InRange ∧
    scheme.verify (scheme.publicKey key) digest sig.toCanonical = true
  decodes : scheme.decodeKey (scheme.publicKey key).compressed = some (scheme.publicKey key)

/-! ## Flags -/

namespace SighashFlag

/-- The flag of a base and of the two bits above it. -/
def ofParts (base : SighashBase) (anyoneCanPay forkId : Bool) : SighashFlag :=
  ⟨(match base with | .all => 1 | .none => 2 | .single => 3) |||
    (if anyoneCanPay then 0x80 else 0) ||| (if forkId then 0x40 else 0)⟩

variable (b : SighashBase) (anyoneCanPay forkId : Bool)

theorem fitsByte_ofParts : (ofParts b anyoneCanPay forkId).fitsByte = true := by
  cases b <;> cases anyoneCanPay <;> cases forkId <;> decide

theorem hasForkId_ofParts : (ofParts b anyoneCanPay forkId).hasForkId = forkId := by
  cases b <;> cases anyoneCanPay <;> cases forkId <;> decide

theorem strictBase_ofParts : 1 ≤ (ofParts b anyoneCanPay forkId).strictBase ∧
    (ofParts b anyoneCanPay forkId).strictBase ≤ 3 := by
  cases b <;> cases anyoneCanPay <;> cases forkId <;> decide

/-- A flag that is made of these parts is read back from its byte. -/
theorem ofByte_toByte_ofParts :
    ofByte (ofParts b anyoneCanPay forkId).toByte = ofParts b anyoneCanPay forkId := by
  cases b <;> cases anyoneCanPay <;> cases forkId <;> decide

end SighashFlag

namespace PayToKeyHash

/-! ## The two scripts -/

/-- The instructions of the lock. -/
def lockInstructions (h : Hash160) : List Instruction :=
  [⟨0x76, none⟩, ⟨0xa9, none⟩, .push h.bytes, ⟨0x88, none⟩, ⟨0xac, none⟩]

/-- The instructions that unlock it. -/
def unlockInstructions (element key : Bytes) : List Instruction := [.push element, .push key]

theorem encode_lockInstructions (h : Hash160) :
    Script.encode (lockInstructions h) = Script.payToKeyHash h := by
  simp only [lockInstructions, Script.encode_cons, Script.encode_nil, Instruction.encode_push_hash]
  rfl

theorem scan_lock (h : Hash160) :
    Script.scan (Script.payToKeyHash h) = (lockInstructions h, []) := by
  rw [← encode_lockInstructions]
  refine Script.scan_encode fun i hi => ?_
  simp only [lockInstructions, List.mem_cons, List.not_mem_nil, or_false] at hi
  rcases hi with rfl | rfl | rfl | rfl | rfl
  · exact .bare rfl
  · exact .bare rfl
  · exact Instruction.readable_push_hash h
  · exact .bare rfl
  · exact .bare rfl

theorem length_lock (h : Hash160) : (Script.payToKeyHash h).length = 25 := by
  simp [Script.payToKeyHash]

section

variable {element key : Bytes}

theorem pushTwo_eq (helement : element.length < UInt32.size) (hkey : key.length < UInt32.size) :
    pushTwo element key = .ok (Script.encode (unlockInstructions element key)) := by
  have hencode : Script.encode (unlockInstructions element key) =
      (Instruction.push element).encode ++ (Instruction.push key).encode := by
    simp [unlockInstructions]
  rw [pushTwo, Script.pushed_eq helement, Script.pushed_eq hkey, hencode]
  rfl

theorem scan_unlocking (helement : element.length < UInt32.size) (hkey : key.length < UInt32.size) :
    Script.scan (Script.encode (unlockInstructions element key)) =
      (unlockInstructions element key, []) := by
  refine Script.scan_encode fun i hi => ?_
  simp only [unlockInstructions, List.mem_cons, List.not_mem_nil, or_false] at hi
  rcases hi with rfl | rfl
  · exact Instruction.readable_push helement
  · exact Instruction.readable_push hkey

theorem length_encode_push_le (b : Bytes) : (Instruction.push b).encode.length ≤ b.length + 5 := by
  have hle : (Instruction.push b).code ≤ 0x4e := Opcode.forPush_le b.length
  have hwidth : Opcode.lengthWidth (Instruction.push b).code ≤ 4 := by
    unfold Opcode.lengthWidth
    split_ifs <;> decide
  rw [Instruction.encode, if_pos hle, Instruction.data_push]
  simp only [List.length_cons, List.length_append, Bytes.length_ofNatLE]
  omega

theorem length_unlocking_le (element key : Bytes) :
    (Script.encode (unlockInstructions element key)).length ≤ element.length + key.length + 10 := by
  have helement := length_encode_push_le element
  have hkey := length_encode_push_le key
  simp only [unlockInstructions, Script.encode_cons, Script.encode_nil, List.length_append,
    List.length_nil]
  omega

theorem isPushOnly_unlocking (element key : Bytes) :
    Run.isPushOnly (unlockInstructions element key) = true := by
  have hpush : ∀ b, decide ((Instruction.push b).code ≤ 0x60) = true := fun b =>
    decide_eq_true (UInt8.le_trans (Opcode.forPush_le b.length) (by decide))
  simp only [Run.isPushOnly, unlockInstructions, List.all_cons, List.all_nil, hpush, Bool.and_self]

end

/-! ## The run -/

section

variable {r : Rules} {m : Machine} {element key : Bytes}

/-- The unlocking script leaves the key above the signature. -/
theorem script_unlocking (hlimits : r.limits = .consensus) (hmain : m.main = []) (halt : m.alt = [])
    (helement : 2 ≤ element.length ∧ element.length ≤ 520)
    (hlength : 2 ≤ key.length ∧ key.length ≤ 520) :
    ∃ opened, Run.script r (unlockInstructions element key) m = .ok () opened ∧
      opened.main = [key, element] ∧ opened.alt = [] := by
  have hsize : r.limits.maxElementSize = 520 := by rw [hlimits]; rfl
  have hstack : r.limits.maxStackSize = 1000 := by rw [hlimits]; rfl
  have hstart : Run.Comes r (unlockInstructions element key) m 0 [] 0 := by
    rw [← hmain]
    exact Run.comes_start halt
  have helementPushed := hstart.push (b := element) rfl helement.1 (by omega) (Nat.zero_le _)
    (by simp [hstack])
  have hkeyPushed := helementPushed.push (b := key) rfl hlength.1 (by omega) (Nat.zero_le _)
    (by simp [hstack])
  exact Run.script_of_comes hkeyPushed

/-- The lock for the key leaves a true element, if the signature is valid. -/
theorem script_lock {c : Context} (hlimits : r.limits = .consensus) (hcontext : r.context = some c)
    (hmain : m.main = [key, element]) (halt : m.alt = [])
    (hsignature : r.checkSignature element = .ok ()) (hkey : r.checkKey key = .ok ())
    (hvalid : r.validity c element key
      (Run.codeFor r (lockInstructions (hash160 key)) [element] element) = .ok true) :
    ∃ locked, Run.script r (lockInstructions (hash160 key)) m = .ok () locked ∧
      locked.main = [[1]] := by
  have hsize : r.limits.maxElementSize = 520 := by rw [hlimits]; rfl
  have hops : r.limits.maxOps = 201 := by rw [hlimits]; rfl
  have hstack : r.limits.maxStackSize = 1000 := by rw [hlimits]; rfl
  have hblock : (hash160 key).bytes.length = 20 := Block.length_bytes _
  have hstart : Run.Comes r (lockInstructions (hash160 key)) m 0 [key, element] 0 := by
    rw [← hmain]
    exact Run.comes_start halt
  have hdup := hstart.dup rfl (by omega) (by simp [hstack])
  have hhash := hdup.hash160 rfl (by omega) (by simp [hstack])
  have hpushed := hhash.push (b := (hash160 key).bytes) rfl (by omega) (by omega) (by omega)
    (by simp [hstack])
  have hequal := hpushed.equalVerify rfl (by omega) (by simp [hstack])
  have hchecked := hequal.checkSig rfl (by omega) (by simp [hstack]) hcontext hsignature hkey hvalid
  obtain ⟨locked, hlocked, hlockedMain, -⟩ := Run.script_of_comes hchecked
  exact ⟨locked, hlocked, hlockedMain⟩

/-- A lock by the hash of a key is not one by the hash of a script. -/
theorem byScriptHash_lock (h : Hash160) : Run.byScriptHash r (Script.payToKeyHash h) = false := by
  have hlength : (Script.payToKeyHash h).length ≠ 23 := by
    rw [length_lock]
    decide
  rw [Run.byScriptHash, Script.isPayToScriptHash, decide_eq_false fun h => hlength h.1,
    Bool.and_false]

/-- **A signature and a key that pass the checks open the lock for the key.** -/
theorem spend_of_valid {c : Context} (hlimits : r.limits = .consensus)
    (hcontext : r.context = some c) (hmain : m.main = []) (halt : m.alt = [])
    (helement : 2 ≤ element.length ∧ element.length ≤ 520)
    (hlength : 2 ≤ key.length ∧ key.length ≤ 520) (hsignature : r.checkSignature element = .ok ())
    (hkey : r.checkKey key = .ok ())
    (hvalid : r.validity c element key
      (Run.codeFor r (lockInstructions (hash160 key)) [element] element) = .ok true) :
    ∃ after, Run.spend r (Script.encode (unlockInstructions element key))
      (Script.payToKeyHash (hash160 key)) m = .ok () after := by
  have hscript : r.limits.maxScriptSize = 10000 := by rw [hlimits]; rfl
  have hlock := scan_lock (hash160 key)
  have hunlock : Script.scan (Script.encode (unlockInstructions element key)) =
      (unlockInstructions element key, []) :=
    scan_unlocking (Nat.lt_of_le_of_lt helement.2 (by decide))
      (Nat.lt_of_le_of_lt hlength.2 (by decide))
  have hne : Script.payToKeyHash (hash160 key) ≠ [] := by
    rw [← List.length_pos_iff, length_lock]
    decide
  obtain ⟨opened, hopened, hopenedMain, hopenedAlt⟩ :=
    script_unlocking hlimits hmain halt helement hlength
  obtain ⟨locked, hlocked, hlockedMain⟩ :=
    script_lock hlimits hcontext hopenedMain hopenedAlt hsignature hkey hvalid
  refine ⟨locked, Run.spend_of_runs opened ?_ ?_ hne ?_ ?_ ?_ (byScriptHash_lock _) ?_ ?_
    hlockedMain rfl⟩
  · have hle := length_unlocking_le element key
    omega
  · rw [length_lock, hscript]
    decide
  · rw [hunlock]
  · rw [hlock]
  · rw [hunlock]
    exact isPushOnly_unlocking element key
  · rw [hunlock]
    exact hopened
  · rw [hlock]
    exact hlocked

end

/-! ## What the signer writes -/

section

variable {r : Rules} {sig : Signature} {flag : SighashFlag} {b : SighashBase}
  {anyoneCanPay forkId : Bool}

theorem length_signatureElement (sig : Signature) (flag : SighashFlag) :
    2 ≤ (signatureElement sig flag).length ∧ (signatureElement sig flag).length ≤ 73 := by
  have hbodies := sig.length_bodies_le
  have hlength : (signatureElement sig flag).length = sig.toDer.length + 1 := by
    simp [signatureElement]
  rw [hlength, Signature.toDer_eq, Der.length_frame]
  omega

theorem getLast?_signatureElement (sig : Signature) (flag : SighashFlag) :
    (signatureElement sig flag).getLast? = some flag.toByte :=
  List.getLast?_concat

theorem dropLast_signatureElement (sig : Signature) (flag : SighashFlag) :
    (signatureElement sig flag).dropLast = sig.toDer :=
  List.dropLast_concat

theorem usesForkId_signatureElement (hflag : flag = .ofParts b anyoneCanPay forkId)
    (hforkId : r.flags.has .forkId = forkId) : r.usesForkId (signatureElement sig flag) = forkId := by
  unfold Rules.usesForkId
  rw [getLast?_signatureElement, hflag]
  dsimp only
  rw [SighashFlag.ofByte_toByte_ofParts, SighashFlag.hasForkId_ofParts, hforkId, Bool.and_self]

/-- **A low signature and a flag pass the check of encodings**, whatever else is asked for. -/
theorem checkSignature_signatureElement (hlow : sig.hasHighS = false)
    (hflag : flag = .ofParts b anyoneCanPay forkId) (hforkId : r.flags.has .forkId = forkId) :
    r.checkSignature (signatureElement sig flag) = .ok () := by
  rw [Rules.checkSignature_eq_ok_iff, getLast?_signatureElement, dropLast_signatureElement]
  intro byte hbyte
  cases hbyte
  rw [Rules.checkSighashByte_eq_ok_iff, Rules.checkDer_eq_ok_iff, hflag,
    SighashFlag.ofByte_toByte_ofParts]
  refine ⟨fun _ => ⟨SighashFlag.strictBase_ofParts .., ?_⟩, fun _ => ⟨sig.check_toDer, fun _ => ?_⟩⟩
  · rw [SighashFlag.hasForkId_ofParts, hforkId]
  · exact ⟨sig, sig.ofDerLax_toDer, hlow⟩

/-- A compressed key passes the check of encodings. -/
theorem checkKey_compressed (key : PublicKey) : r.checkKey key.compressed = .ok () := by
  rw [Rules.checkKey_eq_ok_iff]
  refine fun _ => .inl ⟨key.length_compressed, ?_⟩
  unfold PublicKey.compressed
  rw [List.head?_cons]
  split
  · exact .inr rfl
  · exact .inl rfl

/-- What the signer wrote is valid if the signature is. -/
theorem validity_signatureElement {c : Context} {key : PublicKey} {code : Bytes}
    {digest : Hash256} (hflag : flag = .ofParts b anyoneCanPay forkId)
    (hforkId : r.flags.has .forkId = forkId)
    (hdecodes : r.scheme.decodeKey key.compressed = some key)
    (hdigest : c.digest r.input code flag forkId = .ok digest)
    (hverify : sig.verify r.scheme key digest = true) :
    r.validity c (signatureElement sig flag) key.compressed code = .ok true := by
  have hbyte : SighashFlag.ofByte flag.toByte = flag := by
    rw [hflag, SighashFlag.ofByte_toByte_ofParts]
  refine Rules.validity_eq_true_iff.mpr ⟨flag.toByte, sig, key, digest,
    getLast?_signatureElement sig flag, ?_, hdecodes, ?_, hverify⟩
  · rw [dropLast_signatureElement, sig.ofDerLax_toDer]
  · rw [hbyte, usesForkId_signatureElement hflag hforkId, hdigest]

/-- **The signed part of the lock is the lock**, for the older digest too unless the signature is
the hash of the key. -/
theorem codeFor_lock {h : Hash160} {element : Bytes}
    (hdistinct : r.usesForkId element = false → element ≠ h.bytes) :
    Run.codeFor r (lockInstructions h) [element] element = Script.payToKeyHash h := by
  unfold Run.codeFor
  split
  · exact encode_lockInstructions h
  · next hlegacy =>
    have hne : element ≠ h.bytes := hdistinct (by simpa using hlegacy)
    have hkept : ∀ i ∈ lockInstructions h, (!i.pushesOneOf [element]) = true := by
      intro i hi
      have hnot : i.isPushOf element = false := by
        refine decide_eq_false fun hpush => ?_
        simp only [lockInstructions, List.mem_cons, List.not_mem_nil, or_false] at hi
        rcases hi with rfl | rfl | rfl | rfl | rfl
        · exact absurd hpush.1 (by decide)
        · exact absurd hpush.1 (by decide)
        · exact hne (hpush.2.1.symm.trans (Instruction.data_push _))
        · exact absurd hpush.1 (by decide)
        · exact absurd hpush.1 (by decide)
      rw [Instruction.pushesOneOf, List.any_cons, List.any_nil, hnot, Bool.and_false, Bool.or_false,
        Bool.not_false]
    rw [withoutSignatures, List.filter_eq_self.mpr hkept, encode_lockInstructions]

end

/-! ## The digest -/

section

variable {tx : Transaction} {index : Nat} {source : Output} {flag : SighashFlag} {digest : Hash256}

/-- There is a digest to sign. -/
theorem exists_inputDigest (hsource : tx.source index = .ok source) (hfits : flag.fitsByte = true) :
    ∃ digest, tx.inputDigest index flag = .ok digest := by
  obtain ⟨i, hinput, -⟩ := Transaction.source_eq_ok_iff.mp hsource
  unfold Transaction.inputDigest
  rw [hsource]
  show ∃ digest, (if flag.hasForkId = true then _ else _ : Except TransactionError Hash256) = _
  split
  · exact Transaction.exists_amountDigest hinput hfits _ _
  · exact Transaction.exists_legacyDigest hinput hfits _

/-- **The digest that the verifier asks for is the one that was signed**, although the input has
another unlocking script by now. -/
theorem digest_withUnlocking (hsource : tx.source index = .ok source)
    (hdigest : tx.inputDigest index flag = .ok digest) (unlocking : Script) :
    (BoundInput.context ⟨tx.withUnlocking index unlocking, index, source.satoshis⟩).digest index
      source.script flag flag.hasForkId = .ok digest := by
  have hsame := tx.sameButScripts_withUnlocking index unlocking
  unfold Transaction.inputDigest at hdigest
  rw [hsource] at hdigest
  change (if flag.hasForkId = true then _ else _ : Except TransactionError Hash256) = _ at hdigest
  show BoundInput.digest _ _ _ _ _ = _
  unfold BoundInput.digest
  rw [if_pos rfl]
  dsimp only
  rw [hsame.amountDigest_eq, hsame.legacyDigest_eq, hdigest]
  rfl

end

/-! ## Signing and verifying -/

section

variable {scheme : Scheme} {key : PrivateKey} {flag : SighashFlag} {tx : Transaction}
  {index : Nat} {digest : Hash256} {sig : Signature}

/-- The script that unlocks an input whose digest was signed. -/
def unlockingFor (key : PublicKey) (flag : SighashFlag) (sig : Signature) : Script :=
  Script.encode (unlockInstructions (signatureElement sig.toCanonical flag) key.compressed)

theorem unlock_eq_ok (hdigest : tx.inputDigest index flag = .ok digest)
    (hsign : scheme.sign key digest = some sig) :
    unlock scheme key flag tx index = .ok (unlockingFor (scheme.publicKey key) flag sig) := by
  have hscripts : pushTwo (signatureElement sig.toCanonical flag)
      (scheme.publicKey key).compressed = .ok (unlockingFor (scheme.publicKey key) flag sig) :=
    pushTwo_eq (Nat.lt_of_le_of_lt (length_signatureElement _ _).2 (by decide))
      (by rw [PublicKey.length_compressed]; decide)
  have hsigned : Signature.sign scheme key digest = .ok sig.toCanonical := by
    rw [Signature.sign, hsign]
  unfold unlock
  simp only [hdigest, hsigned, hscripts, bind, Except.bind]
  rfl

theorem signInput_eq_ok {i : Input} {unlocking : Script} (hinput : tx.input index = .ok i)
    (hunlock : unlock scheme key flag tx index = .ok unlocking) :
    signInput scheme key flag tx index = .ok (tx.withUnlocking index unlocking) := by
  unfold signInput
  rw [hunlock]
  show (tx.modifyInput index fun i => { i with unlocking }) = _
  unfold Transaction.modifyInput
  rw [hinput]
  rfl

theorem verifyInput_eq {v : Verifier} {i : Input} {source : Output} {flags : Flags}
    (hinput : tx.input index = .ok i) (hsource : i.source = some source) :
    v.verifyInput tx index flags =
      .ok (v.verifyScript i.unlocking source.script tx index flags source.satoshis) := by
  have hfound : tx.source index = .ok source :=
    Transaction.source_eq_ok_iff.mpr ⟨i, hinput, hsource⟩
  unfold Verifier.verifyInput
  rw [hinput, hfound]
  rfl

/-- The run on what the signer wrote, under any flags that want the digest which was signed. -/
theorem spend_unlockingFor {r : Rules} {c : Context} {m : Machine} {pub : PublicKey}
    {base : SighashBase} {anyoneCanPay forkId : Bool} (hlimits : r.limits = .consensus)
    (hcontext : r.context = some c) (hmain : m.main = []) (halt : m.alt = [])
    (hflag : flag = .ofParts base anyoneCanPay forkId) (hforkId : r.flags.has .forkId = forkId)
    (hrange : sig.InRange) (hdecodes : r.scheme.decodeKey pub.compressed = some pub)
    (hverify : r.scheme.verify pub digest sig.toCanonical = true)
    (hdigest : c.digest r.input (lockFor pub) flag forkId = .ok digest)
    (hdistinct : forkId = false → signatureElement sig.toCanonical flag ≠ pub.hash.bytes) :
    ∃ after, Run.spend r (unlockingFor pub flag sig) (lockFor pub) m = .ok () after := by
  obtain ⟨htwinRange, hlow⟩ :=
    Signature.isCanonical_iff.mp (Signature.isCanonical_toCanonical hrange)
  have hlength := length_signatureElement sig.toCanonical flag
  have huses : r.usesForkId (signatureElement sig.toCanonical flag) = forkId :=
    usesForkId_signatureElement hflag hforkId
  have hcode : Run.codeFor r (lockInstructions pub.hash)
      [signatureElement sig.toCanonical flag] (signatureElement sig.toCanonical flag) =
      lockFor pub :=
    codeFor_lock fun hlegacy => hdistinct (huses.symm.trans hlegacy)
  have htwin : sig.toCanonical.verify r.scheme pub digest = true := by
    rw [Signature.verify, Signature.toCanonical_of_low hlow,
      (r.scheme.admits_iff sig.toCanonical).mpr htwinRange, hverify, Bool.and_self]
  have hvalid : r.validity c (signatureElement sig.toCanonical flag) pub.compressed
      (Run.codeFor r (lockInstructions pub.hash) [signatureElement sig.toCanonical flag]
        (signatureElement sig.toCanonical flag)) = .ok true := by
    rw [hcode]
    exact validity_signatureElement hflag hforkId hdecodes hdigest htwin
  exact spend_of_valid hlimits hcontext hmain halt ⟨hlength.1, Nat.le_trans hlength.2 (by decide)⟩
    (by rw [PublicKey.length_compressed]; decide) (checkSignature_signatureElement hlow hflag hforkId)
    (checkKey_compressed pub) hvalid

/-- A spend that succeeds is reported as a success. -/
theorem verifyScript_eq_success {v : Verifier} {unlocking locking : Script} {flags : Flags}
    {amount : UInt64} {r e : Rules} {after : Machine} (hindex : index < tx.inputs.length)
    (hr : r = ⟨v.limits, flags, v.scheme, some (BoundInput.context ⟨tx, index, amount⟩), index⟩)
    (he : r.effective = .ok e)
    (hspend : Run.spend e unlocking locking (.begun r unlocking locking) = .ok () after) :
    ∃ events, v.verifyScript unlocking locking tx index flags amount = (.success, events) := by
  have hverdict : (execute r unlocking locking).verdict = .ok () :=
    execute_ok_iff.mpr ⟨e, after, he, hspend⟩
  subst hr
  refine ⟨(v.run ⟨tx, index, amount⟩ flags unlocking locking).events, ?_⟩
  unfold Verifier.verifyScript
  rw [if_pos hindex]
  unfold Verifier.run
  dsimp only
  rw [hverdict]
  rfl

/-- **What is signed is accepted.**  An input that is locked by the hash of a key, and that the key
signs with any base, for all inputs or for one, is accepted with its new unlocking script under all
flags that can be run under and that want the digest which was signed. -/
theorem signInput_accepted {source : Output} {base : SighashBase} {anyoneCanPay : Bool}
    {flags : Flags} (hsource : tx.source index = .ok source)
    (hlock : source.script = lockFor (scheme.publicKey key)) (hflags : flags.Accepted)
    (hflag : flag = .ofParts base anyoneCanPay (flags.has .forkId))
    (hserves : ∀ digest, tx.inputDigest index flag = .ok digest → scheme.Serves key digest)
    (hdistinct : flags.has .forkId = false → ∀ digest sig,
      tx.inputDigest index flag = .ok digest → scheme.sign key digest = some sig →
      signatureElement sig.toCanonical flag ≠ (scheme.publicKey key).hash.bytes) :
    ∃ unlocking events, unlock scheme key flag tx index = .ok unlocking ∧
      signInput scheme key flag tx index = .ok (tx.withUnlocking index unlocking) ∧
      Verifier.verifyInput ⟨scheme, .consensus⟩ (tx.withUnlocking index unlocking) index flags =
        .ok (.success, events) := by
  have hfits : flag.fitsByte = true := by
    rw [hflag]
    exact SighashFlag.fitsByte_ofParts ..
  have hmarked : flag.hasForkId = flags.has .forkId := by
    rw [hflag]
    exact SighashFlag.hasForkId_ofParts ..
  obtain ⟨input, hinput, hcarries⟩ := Transaction.source_eq_ok_iff.mp hsource
  obtain ⟨digest, hdigest⟩ := exists_inputDigest hsource hfits
  obtain ⟨⟨sig, hsign, hrange, hverify⟩, hdecodes⟩ := hserves digest hdigest
  have hunlock := unlock_eq_ok hdigest hsign
  have hsigned := signInput_eq_ok hinput hunlock
  generalize hu : unlockingFor (scheme.publicKey key) flag sig = unlocking at hunlock hsigned
  have hinput' := Transaction.input_withUnlocking hinput unlocking
  obtain ⟨r, hr⟩ : ∃ r : Rules, r = ⟨.consensus, flags, scheme,
    some (BoundInput.context ⟨tx.withUnlocking index unlocking, index, source.satoshis⟩), index⟩ :=
    ⟨_, rfl⟩
  obtain ⟨e, he⟩ : ∃ e, r.effective = .ok e := Rules.accepted_iff.mp (by rw [hr]; exact hflags)
  have hforkId : e.flags.has .forkId = flags.has .forkId := by
    rw [Rules.has_forkId_of_effective he, hr]
  have hasked := digest_withUnlocking hsource hdigest unlocking
  rw [hmarked, hlock] at hasked
  obtain ⟨after, hspend⟩ : ∃ after, Run.spend e unlocking source.script
      (.begun r unlocking source.script) = .ok () after := by
    obtain ⟨rfl, -⟩ := Rules.effective_eq_ok_iff.mp he
    subst hr
    rw [← hu, hlock]
    exact spend_unlockingFor rfl rfl rfl rfl hflag hforkId hrange hdecodes hverify (hu ▸ hasked)
      fun hnot => hdistinct hnot digest sig hdigest hsign
  obtain ⟨events, hverdict⟩ := verifyScript_eq_success (v := ⟨scheme, .consensus⟩)
    (Transaction.lt_of_input hinput') hr he hspend
  exact ⟨unlocking, events, hunlock, hsigned,
    (verifyInput_eq hinput' hcarries).trans (congrArg Except.ok hverdict)⟩

end

/-! ## An input without an output beside it -/

namespace Beside

theorem one_lt_order : 1 < Secp256k1.order := by decide

/-- The smallest key. -/
def key : PrivateKey := ⟨1, Nat.one_pos, one_lt_order⟩

/-- A transaction with one input, which is locked by the hash of the key, and no output. -/
def tx : Transaction :=
  ⟨1, [⟨⟨.zero 32, 0⟩, [], 0xffffffff,
    some ⟨1000, lockFor (Scheme.secp256k1.publicKey key)⟩⟩], [], 0⟩

/-- A flag for the output beside the input, without other inputs. -/
def flag (forkId : Bool) : SighashFlag := .ofParts .single true forkId

/-- The digest that is signed.  Without the amount it is the number one, because there is no output
beside the input. -/
def digest : (forkId : Bool) → Hash256
  | true => ⟨
    [0xa9, 0x52, 0x72, 0x37, 0x23, 0x8d, 0x15, 0x74, 0xfe, 0xf7, 0x53, 0x6b, 0x82, 0x8f, 0x09,
      0xd2, 0xbe, 0x8f, 0x5c, 0x68, 0xc3, 0xbe, 0xd3, 0x72, 0x52, 0xca, 0x39, 0x91, 0x16, 0x68,
      0x43, 0x30], rfl⟩
  | false => Transaction.oneDigest

/-- What the curve signs it with. -/
def signature : (forkId : Bool) → Signature
  | true =>
    ⟨3011186800244449129912390820044930126688244691359758459714533603224998706944,
      105163618631765418347242276486095682797209128698396444731895406204111967216121⟩
  | false =>
    ⟨14295053964488743090340009838833186193957205491298546148700052350175735655842,
      62089862098763908163877965248475044962873364237870286138157982427847308119957⟩

theorem digest_eq {forkId : Bool} {d : Hash256}
    (h : tx.inputDigest 0 (flag forkId) = .ok d) : d = digest forkId := by
  have hdigest : (tx.inputDigest 0 (flag forkId)).toOption = some (digest forkId) := by
    cases forkId <;> decide +kernel
  rw [h] at hdigest
  exact Option.some.inj hdigest

theorem sign_eq (forkId : Bool) :
    Scheme.secp256k1.sign key (digest forkId) = some (signature forkId) := by
  cases forkId <;> decide +kernel

/-- The curve signs the digests of both kinds. -/
theorem serves (forkId : Bool) : ∀ d, tx.inputDigest 0 (flag forkId) = .ok d →
    Scheme.secp256k1.Serves key d := by
  intro d hd
  rw [digest_eq hd]
  refine ⟨⟨signature forkId, sign_eq forkId, ?_⟩, by decide +kernel⟩
  cases forkId <;> decide +kernel

/-- The signature of the older digest is not the hash of the key. -/
theorem element_ne_hash : ∀ d sig, tx.inputDigest 0 (flag false) = .ok d →
    Scheme.secp256k1.sign key d = some sig → signatureElement sig.toCanonical (flag false) ≠
      (Scheme.secp256k1.publicKey key).hash.bytes := by
  intro d sig hd hsign
  rw [digest_eq hd, sign_eq] at hsign
  obtain rfl := Option.some.inj hsign
  decide +kernel

/-- The input is signed and accepted, with the amount under the flags of ordinary transactions, and
without it under others. -/
theorem signed_accepted :
    (∃ unlocking events, unlock .secp256k1 key (flag true) tx 0 = .ok unlocking ∧
      signInput .secp256k1 key (flag true) tx 0 = .ok (tx.withUnlocking 0 unlocking) ∧
      Verifier.verifyInput ⟨.secp256k1, .consensus⟩ (tx.withUnlocking 0 unlocking) 0 .standard =
        .ok (.success, events)) ∧
    ∃ unlocking events, unlock .secp256k1 key (flag false) tx 0 = .ok unlocking ∧
      signInput .secp256k1 key (flag false) tx 0 = .ok (tx.withUnlocking 0 unlocking) ∧
      Verifier.verifyInput ⟨.secp256k1, .consensus⟩ (tx.withUnlocking 0 unlocking) 0
        (.ofList [.strictEncoding, .lowS, .minimalData]) = .ok (.success, events) :=
  ⟨signInput_accepted rfl rfl (by decide) rfl (serves true) fun h => absurd h (by decide),
    signInput_accepted rfl rfl (by decide) rfl (serves false) fun _ => element_ne_hash⟩

end Beside

end PayToKeyHash

end CoinScript
