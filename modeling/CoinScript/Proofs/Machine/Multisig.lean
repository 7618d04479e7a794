import CoinScript.Proofs.Machine.Matching

/-!
# The check of several signatures

`checkMultiple_decides` says what the check of several signatures does on a stack that holds a
count, that many keys, a count, that many signatures and one element more.  The run is stopped by
one of the checks around the matching (`MultisigRefusal`), or the operands are replaced by a truth
value: whether the signatures can be assigned to keys in strictly the same order.

The proof follows the program: `popCounted_eq` takes the operands, `decides_checkPair` says what is
found of one pair, and `decides_matchKeys` what is found of all.
-/

namespace CoinScript

namespace Rules

/-- The element reads as a count, which is an operand brought into 64 bits with a sign. -/
def ReadsCount (r : Rules) (b : Bytes) (n : Nat) : Prop :=
  (Number.decode r.numberFormat b).map (Number.clamp 64) = .ok (n : Int)

end Rules

namespace Run

/-! ## One signature -/

/-- A check of the signature finds that it is valid. -/
def Fits (r : Rules) (c : Context) (code sig key : Bytes) : Prop :=
  ∃ m after, checkSig r c sig key code m = .ok true after

theorem fits_iff {r : Rules} {c : Context} {code sig key : Bytes} :
    Fits r c code sig key ↔ r.validity c sig key code = .ok true := by
  constructor
  · rintro ⟨m, after, h⟩
    exact validity_of_checkSig h
  · intro hv
    obtain ⟨journal, heq⟩ := checkSig_eq r c sig key code .start
    rw [hv] at heq
    exact ⟨_, _, heq⟩

/-! ## What stops the check of several signatures -/

/-- The faults of the checks around the matching, each with the cause that it reports. -/
inductive MultisigRefusal (r : Rules) (c : Context) (code : (sig : Bytes) → Bytes)
    (operations : Nat) (keys sigs : List Bytes) (dummy : Bytes) : Fault → Prop
  | tooManyOperations (h : r.limits.maxOps < operations + keys.length) :
    MultisigRefusal r c code operations keys sigs dummy (.tooManyOperations r.limits.maxOps)
  | dummy (hflag : r.flags.has .nullDummy = true) (h : dummy ≠ []) :
    MultisigRefusal r c code operations keys sigs dummy (.dummyNotEmpty dummy.length)
  | signature {sig : Bytes} {fault : Fault} (hsig : sig ∈ sigs)
      (h : r.checkSignature sig = .error fault) :
    MultisigRefusal r c code operations keys sigs dummy fault
  | key {key : Bytes} {fault : Fault} (hkey : key ∈ keys) (h : r.checkKey key = .error fault) :
    MultisigRefusal r c code operations keys sigs dummy fault
  | digest {sig : Bytes} {b : UInt8} {cause : Failure} (hsig : sig ∈ sigs)
      (hb : sig.getLast? = some b)
      (h : c.digest r.input (code sig) (.ofByte b) (r.usesForkId sig) = .error cause) :
    MultisigRefusal r c code operations keys sigs dummy (.context cause)

section

variable {r : Rules} {c : Context} {operations : Nat} {keys sigs : List Bytes} {dummy : Bytes}

/-- What is found of a pair of a signature and a key. -/
theorem decides_checkPair {part : List Instruction} {legacy : List Bytes} {sig key : Bytes}
    (hsig : sig ∈ sigs) (hkey : key ∈ keys) :
    Decides (MultisigRefusal r c (codeFor r part legacy) operations keys sigs dummy)
      (checkPair r c part legacy sig key) (Fits r c (codeFor r part legacy sig) sig key) := by
  intro m
  unfold checkPair
  cases hs : r.checkSignature sig with
  | error fault => exact .inr ⟨fault, m, rfl, .signature hsig hs⟩
  | ok u =>
    cases hk : r.checkKey key with
    | error fault => exact .inr ⟨fault, m, rfl, .key hkey hk⟩
    | ok u =>
      show (∃ v journal, checkSig r c sig key (codeFor r part legacy sig) m = .ok v _ ∧ _) ∨
        ∃ fault after, checkSig r c sig key (codeFor r part legacy sig) m = .error fault after ∧ _
      obtain ⟨journal, heq⟩ := checkSig_eq r c sig key (codeFor r part legacy sig) m
      rw [heq, fits_iff]
      cases hv : r.validity c sig key (codeFor r part legacy sig) with
      | ok v => exact .inl ⟨v, journal, rfl, by simp⟩
      | error cause =>
        obtain ⟨b, hb, hdigest⟩ := Rules.digest_of_validity hv
        exact .inr ⟨_, _, rfl, .digest hsig hb hdigest⟩

end

/-! ## Operands -/

section

variable {r : Rules} {limit : Nat} {fault : Int → Fault} {before : Nat → Run Unit}
  {m m' : Machine} {a : Bytes} {xs : List Bytes} {rest : Stack}

/-- A count that is not above the limit is taken off the stack. -/
theorem popCounted_eq (hm : m.main = a :: rest) (ha : r.ReadsCount a xs.length)
    (hle : xs.length ≤ limit) :
    popCounted r limit fault before m =
      (before xs.length >>= fun _ => onMain (Stack.popMany xs.length)) { m with main := rest } := by
  obtain ⟨v, hv, hclamp⟩ : ∃ v, Number.decode r.numberFormat a = .ok v ∧
      Number.clamp 64 v = (xs.length : Int) := by
    unfold Rules.ReadsCount at ha
    cases hdecode : Number.decode r.numberFormat a with
    | ok v =>
      rw [hdecode] at ha
      exact ⟨v, rfl, Except.ok.inj ha⟩
    | error cause =>
      rw [hdecode] at ha
      cases ha
  have hread : Stack.popNumber r.numberFormat (a :: rest) = .ok v rest := by
    show Stack.asNumber r.numberFormat a rest = _
    unfold Stack.asNumber
    rw [hv]
    rfl
  have hpop : popNumber r m = .ok v { m with main := rest } := by
    unfold popNumber onMain
    rw [hm, hread]
  have hcount : require (decide (0 ≤ (xs.length : Int) ∧ (xs.length : Int) ≤ limit))
      (fault xs.length) { m with main := rest } = .ok () { m with main := rest } := by
    rw [decide_eq_true (by omega)]
    rfl
  unfold popCounted
  rw [bind_of_ok hpop, hclamp, bind_of_ok hcount, Int.toNat_natCast]

/-- If what stands before them succeeds, the counted elements are taken. -/
theorem popCounted_of_ok (hm : m.main = a :: (xs ++ rest)) (ha : r.ReadsCount a xs.length)
    (hle : xs.length ≤ limit) (hbefore : before xs.length { m with main := xs ++ rest } = .ok () m')
    (hm' : m'.main = xs ++ rest) :
    popCounted r limit fault before m = .ok xs { m' with main := rest } := by
  rw [popCounted_eq hm ha hle, bind_of_ok hbefore]
  unfold onMain
  rw [hm', popMany_append]

theorem popCounted_of_error {fault' : Fault} (hm : m.main = a :: (xs ++ rest))
    (ha : r.ReadsCount a xs.length) (hle : xs.length ≤ limit)
    (hbefore : before xs.length { m with main := xs ++ rest } = .error fault' m') :
    popCounted r limit fault before m = .error fault' m' := by
  rw [popCounted_eq hm ha hle, bind_of_error hbefore]

end

/-! ## The whole operation -/

/-- What the check does once it has all its operands. -/
def judge (r : Rules) (check : (sig key : Bytes) → Run Bool) (keys sigs : List Bytes) :
    Run Unit := do
  let valid ← matchKeys check keys sigs
  require (valid || !r.flags.has .nullFail || sigs.all List.isEmpty)
    (.failedSignatureNotEmpty true)
  pushTruth valid

/-- Keys that are more than the operations left stop the run. -/
theorem checkMultiple_of_many {r : Rules} (script : List Instruction) (op : Opcode) {c : Context}
    {m : Machine} {a : Bytes} {keys : List Bytes} {rest : Stack} (hc : r.context = some c)
    (hm : m.main = a :: (keys ++ rest)) (ha : r.ReadsCount a keys.length)
    (hkeys : keys.length ≤ r.limits.maxKeysPerMultisig)
    (hmany : r.limits.maxOps < m.operations + keys.length) :
    checkMultiple r script op m = .error (.tooManyOperations r.limits.maxOps)
      { m with main := keys ++ rest, operations := m.operations + keys.length } := by
  unfold checkMultiple
  rw [bind_of_ok (requireContext_eq hc op m),
    bind_of_error (popCounted_of_error hm ha hkeys (countOperations_of_lt hmany))]

/-- The operands are taken, and then the signatures are matched. -/
theorem checkMultiple_eq {r : Rules} (script : List Instruction) (op : Opcode) {c : Context}
    {m : Machine} {a b dummy : Bytes} {keys sigs : List Bytes} {rest : Stack}
    (hc : r.context = some c) (hm : m.main = a :: (keys ++ b :: (sigs ++ dummy :: rest)))
    (ha : r.ReadsCount a keys.length) (hkeys : keys.length ≤ r.limits.maxKeysPerMultisig)
    (hb : r.ReadsCount b sigs.length) (hsigs : sigs.length ≤ keys.length)
    (hops : m.operations + keys.length ≤ r.limits.maxOps) :
    checkMultiple r script op m =
      (require (dummy.isEmpty || !r.flags.has .nullDummy) (.dummyNotEmpty dummy.length) >>= fun _ =>
        judge r (checkPair r c (signedPart script m.codeStart)
          (sigs.filter fun sig => !r.usesForkId sig)) keys sigs)
        { m with main := rest, operations := m.operations + keys.length } := by
  unfold checkMultiple
  rw [bind_of_ok (requireContext_eq hc op m),
    bind_of_ok (popCounted_of_ok hm ha hkeys (countOperations_of_le hops) rfl),
    bind_of_ok (popCounted_of_ok rfl hb hsigs rfl rfl), bind_of_ok (pop_eq rfl)]
  cases dummy.isEmpty || !r.flags.has .nullDummy <;> rfl

/-- The end of the check: a truth value or, under the flag for it, a fault. -/
theorem judge_decides {r : Rules} {check : (sig key : Bytes) → Run Bool} {keys sigs : List Bytes}
    {refused : Fault → Prop} {possible : Prop} (m : Machine)
    (h : Decides refused (matchKeys check keys sigs) possible) :
    (∃ fault after, judge r check keys sigs m = .error fault after ∧ refused fault) ∨
    ((∃ after, judge r check keys sigs m = .error (.failedSignatureNotEmpty true) after) ∧
      r.flags.has .nullFail = true ∧ ¬possible ∧ ∃ sig ∈ sigs, sig ≠ []) ∨
    ∃ v journal,
      judge r check keys sigs m = .ok () { m with main := Number.ofTruth v :: m.main, journal } ∧
      (v = true ↔ possible) ∧
      (r.flags.has .nullFail = true → v = false → ∀ sig ∈ sigs, sig = []) := by
  rcases h m with ⟨v, journal, hok, hv⟩ | ⟨fault, after, herror, hrefused⟩
  · unfold judge
    rw [bind_of_ok hok]
    cases hend : v || !r.flags.has .nullFail || sigs.all List.isEmpty with
    | true =>
      refine .inr (.inr ⟨v, journal, rfl, hv, fun hflag hfalse sig hsig => ?_⟩)
      rw [hflag, hfalse] at hend
      have hempty := List.all_eq_true.mp hend sig hsig
      simpa using hempty
    | false =>
      simp only [Bool.or_eq_false_iff, Bool.not_eq_false'] at hend
      obtain ⟨⟨hfalse, hflag⟩, hsome⟩ := hend
      refine .inr (.inl ⟨⟨_, rfl⟩, hflag, fun hpossible => ?_, ?_⟩)
      · rw [hv.mpr hpossible] at hfalse
        cases hfalse
      · obtain ⟨sig, hsig, hne⟩ := List.all_eq_false.mp hsome
        exact ⟨sig, hsig, by simpa using hne⟩
  · unfold judge
    rw [bind_of_error herror]
    exact .inl ⟨fault, after, rfl, hrefused⟩

/-- **The check of several signatures decides whether they can be assigned to keys.**  On a stack
with a count, the keys, a count, the signatures and one element more, one of three things happens:
a check stops the run; no assignment exists, a signature is not empty, and that is a fault; or all
operands are replaced by whether an assignment exists. -/
theorem checkMultiple_decides (r : Rules) (script : List Instruction) (op : Opcode) (c : Context)
    (m : Machine) (a b dummy : Bytes) (keys sigs : List Bytes) (rest : Stack)
    (hc : r.context = some c)
    (hm : m.main = a :: (keys ++ b :: (sigs ++ dummy :: rest)))
    (ha : r.ReadsCount a keys.length) (hkeys : keys.length ≤ r.limits.maxKeysPerMultisig)
    (hb : r.ReadsCount b sigs.length) (hsigs : sigs.length ≤ keys.length) :
    let code := codeFor r (signedPart script m.codeStart)
      (sigs.filter fun sig => !r.usesForkId sig)
    let possible := Assignable (fun sig key => Fits r c (code sig) sig key) sigs keys
    (∃ fault after, checkMultiple r script op m = .error fault after ∧
      MultisigRefusal r c code m.operations keys sigs dummy fault) ∨
    ((∃ after, checkMultiple r script op m = .error (.failedSignatureNotEmpty true) after) ∧
      r.flags.has .nullFail = true ∧ ¬possible ∧ ∃ sig ∈ sigs, sig ≠ []) ∨
    ∃ v journal,
      checkMultiple r script op m = .ok ()
        { m with
          main := Number.ofTruth v :: rest
          operations := m.operations + keys.length
          journal } ∧
      (v = true ↔ possible) ∧
      (r.flags.has .nullFail = true → v = false → ∀ sig ∈ sigs, sig = []) := by
  intro code possible
  rcases Nat.lt_or_ge r.limits.maxOps (m.operations + keys.length) with hmany | hops
  · have herror := checkMultiple_of_many script op hc hm ha hkeys hmany
    exact .inl ⟨_, _, herror, .tooManyOperations hmany⟩
  · rw [checkMultiple_eq script op hc hm ha hkeys hb hsigs hops]
    cases hdummy : dummy.isEmpty || !r.flags.has .nullDummy with
    | false =>
      simp only [Bool.or_eq_false_iff, Bool.not_eq_false', List.isEmpty_eq_false_iff] at hdummy
      exact .inl ⟨_, _, rfl, .dummy hdummy.2 hdummy.1⟩
    | true =>
      exact judge_decides _ (decides_matchKeys keys sigs fun sig hsig key hkey =>
        decides_checkPair hsig hkey)

/-! ## One signature and two keys -/

namespace OneOfTwo

/-- A transaction that has the same digest for everything. -/
def context : Context where
  digest _ _ _ _ := .ok (.zero 32)
  digestEvents _ _ _ _ := []
  lockTime := 0
  version := 1
  sequence _ := none

/-- The signature of that digest by the private key 2. -/
def signature : Bytes :=
  Signature.toDer
    ⟨28889178164897732400349122673597779980813800683442657709856985893209090441309,
      975306617560105636158806363328937015971443686536392769224030231227117394719⟩ ++ [0x41]

/-- The public keys of the private keys 1 and 2. -/
def keys : List Bytes :=
  [(Ecdsa.publicKey ⟨1, by decide, by decide⟩).compressed,
    (Ecdsa.publicKey ⟨2, by decide, by decide⟩).compressed]

/-- Rules under which encodings are checked and signatures that fail have to be empty. -/
def rules : Rules :=
  ⟨.consensus, .ofList [.strictEncoding, .lowS, .nullDummy, .nullFail, .forkId], .secp256k1,
    some context, 0⟩

/-- The signature is tried against the first key, which does not fit, and then against the second.
The run ends with true on the stack, so there is an assignment. -/
theorem assignable_second_key :
    Assignable (fun sig key => Fits rules context
      (codeFor rules (signedPart [⟨0xae, none⟩] 0)
        ([signature].filter fun sig => !rules.usesForkId sig) sig) sig key)
      [signature] keys := by
  have hrun : (match checkMultiple rules [⟨0xae, none⟩] 0xae
      { Machine.start with main := [2] :: (keys ++ [1] :: ([signature] ++ [] :: [])) } with
      | .ok _ after => after.main
      | .error _ _ => []) = [[1]] := by decide +kernel
  rcases checkMultiple_decides rules [⟨0xae, none⟩] 0xae context
    { Machine.start with main := [2] :: (keys ++ [1] :: ([signature] ++ [] :: [])) }
    [2] [1] [] keys [signature] [] rfl rfl rfl (by decide) rfl (by decide)
    with ⟨fault, after, herror, -⟩ | ⟨⟨after, herror⟩, -⟩ | ⟨v, journal, hok, hv, -⟩
  · rw [herror] at hrun
    cases hrun
  · rw [herror] at hrun
    cases hrun
  · rw [hok] at hrun
    cases v with
    | true => exact hv.mp rfl
    | false => cases hrun

end OneOfTwo

end Run

end CoinScript
