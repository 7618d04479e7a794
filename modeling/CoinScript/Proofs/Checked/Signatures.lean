import CoinScript.Proofs.Checked.Canonical
import CoinScript.Proofs.Checked.Der
import CoinScript.Proofs.Checked.Operations
import CoinScript.Proofs.Machine.Matching

/-!
# Checks of signatures on words and arrays

The operations on hashes and signatures.  A signature is read by position and passed to its canonical
twin on its bytes; the check of several signatures counts through two arrays.

The loop of that check goes on while there are signatures left, and leaves when there are fewer keys
left than signatures.  So whenever it looks at a key there is one, the differences `numKeys - keyIdx`
and `numSigs - sigIdx` are not below zero, and after one round for each key it is over: with no key left
there are fewer of them than signatures (`tracks_matchKeys`).
-/

namespace CoinScript.Checked

open Secp256k1 (order halfOrder)

variable {ε ε' α β : Type} {sig : Signature} {der : Bytes} {r : Rules}

/-! ## Reading and verifying -/

/-- The result of a computation, if it is not refused. -/
def attempt : Checked ε α → Checked ε' (Option α)
  | .ok a => .ok (some a)
  | .error (.refused _) => .ok none
  | .error .exhausted => .error .exhausted
  | .error (.crashed c) => .error (.crashed c)

/-- The signature whose numbers have these bytes. -/
def ofBytes (r s : Bytes) : Signature :=
  ⟨BitVec.ofNat 256 (Bytes.toNatBE r), BitVec.ofNat 256 (Bytes.toNatBE s)⟩

/-- Whether a signature or its twin is valid. -/
def verify (scheme : Scheme) (key : PublicKey) (digest : Hash256) (r s : Bytes) : Checked ε Bool := do
  let (r, s) ← canonicalBytes r s
  return scheme.admits (ofBytes r s) && scheme.verify key digest (ofBytes r s)

/-- A signature without its last byte is strictly encoded, and its second number is the smaller of the
two. -/
def checkDer (r : Rules) (der : Bytes) : Checked Fault Unit := do
  if r.flags.hasAny [.derSignatures, .lowS, .strictEncoding] then
    let _ ← recast .der (splitStrict der)
    if r.flags.has .lowS then
      match ← attempt (readLax der) with
      | none => refuse .highS
      | some parts => if halfOrderBytes < parts.2 then refuse .highS

/-- The encoding of a signature; an empty one needs none. -/
def checkSignature (r : Rules) (sig : Bytes) : Checked Fault Unit :=
  match sig.getLast? with
  | none => .ok ()
  | some b => do
    ofExcept (r.checkSighashByte b)
    checkDer r sig.dropLast

theorem ofBytes_blocks (sig : Signature) : ofBytes (blocks sig).1 (blocks sig).2 = sig := by
  simp [ofBytes, blocks]

theorem verify_eq (scheme : Scheme) (key : PublicKey) (digest : Hash256) (sig : Signature) :
    (verify scheme key digest (blocks sig).1 (blocks sig).2 : Checked ε Bool) =
      .ok (sig.verify scheme key digest) := by
  rw [verify, blocks, canonicalBytes_eq, ok_bind]
  dsimp only
  have htwin := ofBytes_blocks sig.toCanonical
  rw [blocks] at htwin
  rw [htwin]
  rfl

/-- What is read in the lax form, if anything is. -/
theorem attempt_readLax (ε : Type) (hword : der.length < wordSize) :
    (attempt (readLax der) : Checked ε (Option (Bytes × Bytes))) =
      .ok ((Signature.ofDerLax der).toOption.map blocks) := by
  have h := readLax_agrees hword
  generalize readLax der = x at h
  generalize Signature.ofDerLax der = y at h
  cases h with
  | ok h =>
    rw [h]
    rfl
  | refused cause => rfl

/-- A second number above half the order, on the bytes. -/
theorem halfOrderBytes_lt_iff (sig : Signature) :
    halfOrderBytes < (blocks sig).2 ↔ sig.hasHighS = true := by
  rw [Signature.hasHighS, decide_eq_true_iff]
  exact halfOrderBytes_lt_scalarBytes_iff sig.s

theorem checkDer_eq (hword : der.length < wordSize) : checkDer r der = ofExcept (r.checkDer der) := by
  have hstrict := agrees_eq_iff.mp (splitStrict_agrees der)
  have hlax := attempt_readLax Fault hword
  unfold checkDer Rules.checkDer
  rw [hstrict, hlax, Der.check]
  split
  · cases Der.split der with
    | error cause => rfl
    | ok parts =>
      split
      · cases Signature.ofDerLax der with
        | error cause => rfl
        | ok sig =>
          show (if halfOrderBytes < (blocks sig).2 then refuse Fault.highS else pure ()) =
            ofExcept (if sig.hasHighS = true then throw Fault.highS else pure ())
          by_cases hhigh : sig.hasHighS = true
          · rw [if_pos ((halfOrderBytes_lt_iff sig).mpr hhigh), if_pos hhigh]
            rfl
          · rw [if_neg (mt (halfOrderBytes_lt_iff sig).mp hhigh), if_neg hhigh]
            rfl
      · rfl
  · rfl

theorem checkSignature_eq {sig : Bytes} (hword : sig.length < wordSize) :
    checkSignature r sig = ofExcept (r.checkSignature sig) := by
  unfold checkSignature Rules.checkSignature
  cases sig.getLast? with
  | none => rfl
  | some b =>
    dsimp only
    rw [checkDer_eq (Nat.lt_of_le_of_lt (by rw [List.length_dropLast]; omega) hword)]
    cases r.checkSighashByte b with
    | ok u => rfl
    | error cause => rfl

/-! ## The operations -/

namespace Run

open CoinScript.Checked.Stack (InMemory Room)

variable {ample : Prop} {n k : Nat} {c : Context} {op : Opcode} {part script : List Instruction}
  {keys sigs restKeys restSigs : List Bytes} {numKeys numSigs fuel keyIdx sigIdx : Nat}

/-- Whether a signature is valid for a key and a signed part. -/
def checkSig (r : Rules) (c : Context) (sig key code : Bytes) : Steps Bool := do
  match sig.getLast? with
  | none => return false
  | some b =>
    match ← checked (attempt (readLax sig.dropLast)), r.scheme.decodeKey key with
    | some (x, y), some k =>
      let digest ← lift (CoinScript.Run.askDigest r c code (.ofByte b) (r.usesForkId sig))
      checked (verify r.scheme k digest x y)
    | _, _ => return false

/-- Executes the check of one signature. -/
def checkSingle (r : Rules) (script : List Instruction) (op : Opcode) : Steps Unit := do
  let c ← lift (r.requireContext op)
  let key ← pop
  let sig ← pop
  checked (checkSignature r sig)
  checked (ofExcept (r.checkKey key))
  let part ← lift (CoinScript.Run.currentPart script)
  let valid ← checkSig r c sig key (CoinScript.Run.codeFor r part [sig] sig)
  require (valid || !r.flags.has .nullFail || sig.isEmpty) (.failedSignatureNotEmpty false)
  pushTruth valid

/-- Checks the encodings of a signature and a key and then whether they fit. -/
def checkPair (r : Rules) (c : Context) (part : List Instruction) (legacy : List Bytes)
    (sig key : Bytes) : Steps Bool := do
  checked (checkSignature r sig)
  checked (ofExcept (r.checkKey key))
  checkSig r c sig key (CoinScript.Run.codeFor r part legacy sig)

/-- Tries the signatures from one index on against the keys from another one on. -/
def matchKeys (check : (sig key : Bytes) → Steps Bool) (numKeys numSigs : Nat)
    (keys sigs : List Bytes) : (fuel keyIdx sigIdx : Nat) → Steps Bool
  | 0, _, sigIdx => if numSigs ≤ sigIdx then return true else checked (crash .endless)
  | fuel + 1, keyIdx, sigIdx =>
    if numSigs ≤ sigIdx then return true
    else do
      let sigsLeft ← checked (sub numSigs sigIdx)
      let keysLeft ← checked (sub numKeys keyIdx)
      if keysLeft < sigsLeft then return false
      else
        let sig ← checked (index sigs sigIdx)
        let key ← checked (index keys keyIdx)
        if ← check sig key then
          matchKeys check numKeys numSigs keys sigs fuel (← checked (add keyIdx 1))
            (← checked (add sigIdx 1))
        else
          matchKeys check numKeys numSigs keys sigs fuel (← checked (add keyIdx 1)) sigIdx

/-- Takes a count between zero and `limit`. -/
def popCount (r : Rules) (limit : Nat) (fault : Int → Fault) : Steps Nat := do
  let count := Number.clamp 64 (← popNumber r)
  require (decide (0 ≤ count ∧ count ≤ limit)) (fault count)
  return count.toNat

/-- Takes so many elements into an array that is made for them. -/
def popAll (count : Nat) : Steps (List Bytes) := do
  checked (allocate count 24)
  onMain (Stack.popMany count)

/-- Executes the check of several signatures. -/
def checkMultiple (r : Rules) (script : List Instruction) (op : Opcode) : Steps Unit := do
  let c ← lift (r.requireContext op)
  let numKeys ← popCount r r.limits.maxKeysPerMultisig
    (fun n => .keyCount n r.limits.maxKeysPerMultisig)
  countOperations r numKeys
  let keys ← popAll numKeys
  let numSigs ← popCount r numKeys (fun n => .signatureCount n numKeys)
  let sigs ← popAll numSigs
  let dummy ← pop
  require (dummy.isEmpty || !r.flags.has .nullDummy) (.dummyNotEmpty dummy.length)
  let part ← lift (CoinScript.Run.currentPart script)
  let legacy := sigs.filter fun sig => !r.usesForkId sig
  let valid ← matchKeys (checkPair r c part legacy) numKeys numSigs keys sigs (numKeys + 1) 0 0
  require (valid || !r.flags.has .nullFail || sigs.all List.isEmpty) (.failedSignatureNotEmpty true)
  pushTruth valid

/-- Executes an operation on hashes or signatures. -/
def crypto (r : Rules) (script : List Instruction) (offset : Nat) (op : Opcode) :
    CryptoOp → Steps Unit
  | .hash f => do
    push (f.eval (← pop))
  | .codeSeparator => do
    let codeStart ← checked (add offset 1)
    modify fun m => { m with codeStart }
  | .checkSig checks => do
    checkSingle r script op
    if checks then verifyTop op
  | .checkMultisig checks => do
    checkMultiple r script op
    if checks then verifyTop op

def cryptoArms : List (Opcode × CryptoOp) :=
  [(0xa6, .hash .ripemd160), (0xa7, .hash .sha1), (0xa8, .hash .sha256), (0xa9, .hash .hash160),
    (0xaa, .hash .hash256), (0xab, .codeSeparator), (0xac, .checkSig false), (0xad, .checkSig true),
    (0xae, .checkMultisig false), (0xaf, .checkMultisig true)]

/-! ## They do what the program does -/

theorem askDigest_eq_ok {code : Bytes} {flag : SighashFlag} {forkId : Bool} {digest : Hash256}
    {m m' : Machine} (h : CoinScript.Run.askDigest r c code flag forkId m = .ok digest m') :
    ∃ journal, m' = { m with journal } := by
  unfold CoinScript.Run.askDigest at h
  cases hdigest : c.digest r.input code flag forkId with
  | ok digest =>
    rw [hdigest] at h
    cases h
    exact ⟨_, rfl⟩
  | error cause =>
    rw [hdigest] at h
    cases h

theorem tracks_askDigest (c : Context) (code : Bytes) (flag : SighashFlag) (forkId : Bool) :
    Tracks ample (Held n) (Held n) Any (lift (CoinScript.Run.askDigest r c code flag forkId))
      (CoinScript.Run.askDigest r c code flag forkId) := by
  refine tracks_lift fun m digest m' hm h => ⟨trivial, ?_⟩
  obtain ⟨journal, rfl⟩ := askDigest_eq_ok h
  exact hm.of_journal journal

theorem tracks_checkSig {sig : Bytes} (hsig : InMemory sig) (c : Context) (key code : Bytes) :
    Tracks ample (Held n) (Held n) Any (checkSig r c sig key code)
      (CoinScript.Run.checkSig r c sig key code) := by
  unfold checkSig CoinScript.Run.checkSig
  cases sig.getLast? with
  | none => exact tracks_pure trivial
  | some b =>
    have hword : sig.dropLast.length < wordSize := by
      have hlt := hsig.lt_wordSize
      rw [List.length_dropLast]
      omega
    refine .of_ok (attempt_readLax Fault hword) ?_
    cases Signature.ofDerLax sig.dropLast with
    | error cause => exact tracks_pure trivial
    | ok s =>
      cases r.scheme.decodeKey key with
      | none => exact tracks_pure trivial
      | some k =>
        refine (tracks_askDigest c code _ _).bind fun digest _ => ?_
        have hverify : (verify r.scheme k digest (blocks s).1 (blocks s).2 : Checked Fault Bool) = _ :=
          verify_eq r.scheme k digest s
        show Tracks _ _ _ _ (checked (verify r.scheme k digest (blocks s).1 (blocks s).2)) _
        rw [hverify]
        exact tracks_pure trivial

theorem tracks_checkSignature {sig : Bytes} {I : Machine → Prop} (hsig : InMemory sig) :
    Tracks ample I I Any (checked (checkSignature r sig))
      (CoinScript.Run.ofExcept (r.checkSignature sig)) := by
  rw [checkSignature_eq hsig.lt_wordSize]
  exact tracks_ofExcept (spared_ofExcept fun _ _ => trivial)

theorem tracks_checkKey {I : Machine → Prop} (key : Bytes) :
    Tracks ample I I Any (checked (ofExcept (r.checkKey key)))
      (CoinScript.Run.ofExcept (r.checkKey key)) :=
  tracks_ofExcept (spared_ofExcept fun _ _ => trivial)

theorem tracks_currentPart {I : Machine → Prop} (script : List Instruction) :
    Tracks ample I I Any (lift (CoinScript.Run.currentPart script))
      (CoinScript.Run.currentPart script) :=
  tracks_lift_of_still fun m part m' h => by
    cases h
    rfl

theorem tracks_checkSingle (hn : Room ample (n + 1)) (script : List Instruction) (op : Opcode) :
    Tracks ample (Held n) (Held (n + 1)) Any (checkSingle r script op)
      (CoinScript.Run.checkSingle r script op) :=
  (tracks_requireContext op).bind fun c _ => tracks_pop.bind fun key _ => tracks_pop.bind fun _ hsig =>
    (tracks_checkSignature hsig).bind fun _ _ => (tracks_checkKey key).bind fun _ _ =>
    (tracks_currentPart script).bind fun _ _ => (tracks_checkSig hsig c key _).bind fun valid _ =>
    tracks_require_bind fun _ => tracks_pushTruth valid hn

theorem tracks_checkPair {sig : Bytes} (hsig : InMemory sig) (part : List Instruction)
    (legacy : List Bytes) (key : Bytes) :
    Tracks ample (Held n) (Held n) Any (checkPair r c part legacy sig key)
      (CoinScript.Run.checkPair r c part legacy sig key) :=
  (tracks_checkSignature hsig).bind fun _ _ => (tracks_checkKey key).bind fun _ _ =>
    tracks_checkSig hsig c key _

/-- **What the loop finds**, by induction on the rounds that are left: the keys and the signatures that
it has not passed are those that the program still tries. -/
theorem tracks_matchKeys {check : (sig key : Bytes) → Steps Bool}
    {check' : (sig key : Bytes) → CoinScript.Run Bool}
    (hcheck : ∀ sig ∈ sigs, ∀ key,
      Tracks ample (Held n) (Held n) Any (check sig key) (check' sig key))
    (hkeys : At keys keyIdx restKeys) (hsigs : At sigs sigIdx restSigs)
    (hfuel : restKeys.length < fuel) (hkeysWord : keys.length < wordSize) (hsigsWord : sigs.length < wordSize) :
    Tracks ample (Held n) (Held n) Any
      (matchKeys check keys.length sigs.length keys sigs fuel keyIdx sigIdx)
      (CoinScript.Run.matchKeys check' restKeys restSigs) := by
  induction fuel generalizing keyIdx sigIdx restKeys restSigs with
  | zero => exact absurd hfuel (Nat.not_lt_zero _)
  | succ fuel ih =>
    rw [matchKeys]
    match restSigs, hsigs with
    | [], hsigs =>
      rw [if_pos (Nat.le_of_eq (hsigs.eq_length_iff.mpr rfl).symm)]
      cases restKeys <;> exact tracks_pure trivial
    | sig :: restSigs, hsigs =>
      have hlength := hsigs.add_length
      rw [List.length_cons] at hlength
      rw [if_neg (by omega)]
      refine .of_ok hsigs.sub (.of_ok hkeys.sub ?_)
      match restKeys, hkeys with
      | [], _ =>
        rw [if_pos (by simp)]
        exact tracks_pure trivial
      | key :: restKeys, hkeys =>
        have hsigsLeft : (sig :: restSigs).length = restSigs.length + 1 := rfl
        have hkeysLeft : (key :: restKeys).length = restKeys.length + 1 := rfl
        rw [CoinScript.Run.matchKeys, hsigsLeft, hkeysLeft]
        by_cases hfew : restKeys.length < restSigs.length
        · rw [if_pos (Nat.succ_lt_succ hfew), if_pos hfew]
          exact tracks_pure trivial
        · have hmem : sig ∈ sigs := List.mem_of_getElem? hsigs.getElem?_head
          have hnextKey : (add keyIdx 1 : Checked Fault Nat) = .ok (keyIdx + 1) :=
            hkeys.add (by omega) hkeysWord
          have hnextSig : (add sigIdx 1 : Checked Fault Nat) = .ok (sigIdx + 1) :=
            hsigs.add (by omega) hsigsWord
          rw [if_neg (mt Nat.lt_of_succ_lt_succ hfew), if_neg hfew]
          refine .of_ok hsigs.index_head (.of_ok hkeys.index_head ?_)
          refine (hcheck sig hmem key).bind fun valid _ => tracks_ite (fun _ => ?_) fun _ => ?_
          · exact .of_ok hnextKey (.of_ok hnextSig
              (ih hkeys.tail hsigs.tail (Nat.lt_of_succ_lt_succ hfuel)))
          · exact .of_ok hnextKey (ih hkeys.tail hsigs (Nat.lt_of_succ_lt_succ hfuel))

/-- The count of the program. -/
def takeCount (r : Rules) (limit : Nat) (fault : Int → Fault) : CoinScript.Run Nat := do
  let count := Number.clamp 64 (← CoinScript.Run.popNumber r)
  CoinScript.Run.require (decide (0 ≤ count ∧ count ≤ limit)) (fault count)
  return count.toNat

theorem popCounted_bind {α : Type} {limit : Nat} {fault : Int → Fault}
    {before : Nat → CoinScript.Run Unit} {f : List Bytes → CoinScript.Run α} :
    CoinScript.Run.popCounted r limit fault before >>= f = (do
      let count ← takeCount r limit fault
      before count
      CoinScript.Run.onMain (CoinScript.Stack.popMany count) >>= f) := by
  simp only [CoinScript.Run.popCounted, takeCount, bind_assoc, pure_bind]

theorem clamp_toNat_le (v : Int) : (Number.clamp 64 v).toNat ≤ addressSpace := by
  have hbound : ((1 <<< (64 - 1) : Nat) : Int) = 0x8000000000000000 := by decide
  have hspace : (addressSpace : Int) = 0x7fffffffffffffff := rfl
  unfold Number.clamp
  rw [hbound]
  dsimp only
  omega

theorem tracks_popCount (limit : Nat) (fault : Int → Fault) :
    Tracks ample (Held n) (Held n) (fun count => count ≤ addressSpace ∧ count ≤ limit)
      (popCount r limit fault) (takeCount r limit fault) := by
  refine (tracks_popNumber r).bind fun v _ => tracks_require_bind fun hcount => tracks_pure ?_
  have hbounds := of_decide_eq_true hcount
  exact ⟨clamp_toNat_le v, by omega⟩

theorem tracks_popAll (count : Nat) (hample : ample → count * 24 ≤ addressSpace) :
    Tracks ample (Held (n + count)) (Held n)
      (fun bs => bs.length = count ∧ (∀ b ∈ bs, InMemory b) ∧ count < wordSize)
      (popAll count) (CoinScript.Run.onMain (CoinScript.Stack.popMany count)) := by
  have hword : addressSpace < wordSize := by decide
  refine .of_allocate hample fun hroom => (tracks_popMany count).mono (fun _ h => h) ?_
  rintro bs ⟨hlength, hmemory⟩
  exact ⟨hlength, hmemory, by omega⟩

theorem tracks_checkMultiple (hr : ample → Modest r.limits) (hn : n ≤ addressSpace)
    (hnext : Room ample (n + 1)) (script : List Instruction) (op : Opcode) :
    Tracks ample (Held n) (Held (n + 1)) Any (checkMultiple r script op)
      (CoinScript.Run.checkMultiple r script op) := by
  have hword : addressSpace + addressSpace < wordSize := by decide
  have hroom {count : Nat} (hle : count ≤ r.limits.maxKeysPerMultisig) (hyes : ample) :
      count * 24 ≤ addressSpace := Nat.le_trans (Nat.mul_le_mul_right 24 hle) (hr hyes).keys
  refine (tracks_requireContext op).bind fun c _ => ?_
  rw [popCounted_bind]
  refine (tracks_popCount _ _).bind fun numKeys hnumKeys => ?_
  obtain ⟨hcount, hlimit⟩ := hnumKeys
  refine (tracks_countOperations (by omega)).bind fun _ _ => ?_
  refine (tracks_popAll numKeys (hroom hlimit)).bind fun keys hkeys => ?_
  obtain ⟨rfl, -, hkeysWord⟩ := hkeys
  rw [popCounted_bind]
  refine (tracks_popCount _ _).bind fun numSigs hnumSigs => ?_
  rw [pure_bind]
  have hpop := (tracks_popAll (n := n) numSigs (hroom (Nat.le_trans hnumSigs.2 hlimit))).of_imp
    fun m (hm : Held n m) => hm.mono (Nat.le_add_right n numSigs)
  refine hpop.bind fun sigs hsigs => ?_
  obtain ⟨rfl, hmemory, hsigsWord⟩ := hsigs
  refine tracks_pop.bind fun dummy _ => tracks_require_bind fun _ => ?_
  refine (tracks_currentPart script).bind fun part _ => ?_
  have hcheck : ∀ sig ∈ sigs, ∀ key, Tracks ample (Held n) (Held n) Any _ _ :=
    fun sig hsig => tracks_checkPair (r := r) (c := c) (hmemory sig hsig) part
      (sigs.filter fun sig => !r.usesForkId sig)
  have hmatch := tracks_matchKeys hcheck (At.zero keys) (At.zero sigs) (Nat.lt_succ_self _)
    hkeysWord hsigsWord
  exact hmatch.bind fun valid _ => tracks_require_bind fun _ => tracks_pushTruth valid hnext

theorem tracks_crypto (hr : ample → Modest r.limits) (hn : n ≤ addressSpace)
    (hroom : Room ample (n + 3)) {offset : Nat} (hoffset : offset + 1 < wordSize)
    (script : List Instruction) (op : Opcode) (x : CryptoOp) :
    Tracks ample (Held n) (Held (n + 3)) Any (crypto r script offset op x)
      (CoinScript.Run.crypto r script offset op x) := by
  have hone : n + 1 ≤ n + 3 := Nat.le_add_right (n + 1) 2
  have hnext : Room ample (n + 1) := hroom.mono hone
  cases x with
  | hash f =>
    refine tracks_weaken (tracks_pop.bind fun b _ => tracks_push hnext fun _ => ?_) hone
    exact Nat.le_trans (f.length_eval_le b) (by decide)
  | codeSeparator =>
    refine tracks_weaken (.of_ok (add_of_lt hoffset) (tracks_modify fun m hm => ?_))
      (Nat.le_add_right n 3)
    exact ⟨hm.main, hm.alt, hm.branches, hm.count⟩
  | checkSig checks => exact tracks_verify_if (tracks_checkSingle hnext script op)
  | checkMultisig checks => exact tracks_verify_if (tracks_checkMultiple hr hn hnext script op)

end Run

end CoinScript.Checked
