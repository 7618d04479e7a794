import CoinScript.Machine.Step
import CoinScript.Proofs.Machine.Branches
import CoinScript.Proofs.Machine.Law

/-!
# The signatures that are tried

Deep inside an instruction that checks signatures, signatures are tried against keys, and only there
is the transaction asked for a digest.  A `Trial` is one call of `Run.checkSig`, with all that is
passed to it and the machine that it finds.  `Tried r script m x t` says that the operation `x`,
started on the machine `m`, comes to the trial `t`:

* the check of one signature comes to at most one trial, for the two topmost elements, once the
  encodings of both have been found in order;
* the check of several comes to those that the matching of signatures to keys reaches (`Tries`),
  each again after its encodings have been checked.

`keeps_perform` is the one induction over the operations: an operation keeps a law that allows its
elementary changes and the questions of the trials that it comes to.  So no question is asked that
is not one of a trial (`Trial.Asks`), whether the operation succeeds or not.
-/

namespace CoinScript

/-- A signature that is tried against a key. -/
structure Trial where
  context : Context
  /-- The signatures that the instruction is given to check. -/
  signatures : List Bytes
  signature : Bytes
  key : Bytes
  /-- The signed part of the script, as it is handed to the digest. -/
  code : Bytes
  /-- The machine at this moment. -/
  found : Machine

namespace Trial

/-- What the transaction is asked if signature and key can be read. -/
def Asks (r : Rules) (t : Trial) (q : DigestRequest) : Prop :=
  ∃ b, t.signature.getLast? = some b ∧
    q = ⟨r.input, t.code, .ofByte b, r.usesForkId t.signature,
      t.context.digest r.input t.code (.ofByte b) (r.usesForkId t.signature)⟩

end Trial

/-- The law allows the questions of a trial. -/
def Law.Permits (L : Law) (r : Rules) (t : Trial) : Prop :=
  ∀ q, t.Asks r q → ∀ events,
    L.moves t.found { t.found with journal := ⟨events, q :: t.found.journal.requests⟩ }

namespace Run

/-- Started on `m`, the matching of signatures to keys checks the pair of `sig` and `key` on
`m'`. -/
inductive Tries (check : (sig key : Bytes) → Run Bool) :
    (keys sigs : List Bytes) → (m : Machine) → (sig key : Bytes) → (m' : Machine) → Prop
  | here {key sig : Bytes} {keys sigs : List Bytes} {m : Machine}
      (henough : sigs.length ≤ keys.length) :
      Tries check (key :: keys) (sig :: sigs) m sig key m
  | hit {key sig key' sig' : Bytes} {keys sigs : List Bytes} {m m' m'' : Machine}
      (henough : sigs.length ≤ keys.length) (hcheck : check sig key m = .ok true m')
      (hrest : Tries check keys sigs m' sig' key' m'') :
      Tries check (key :: keys) (sig :: sigs) m sig' key' m''
  | miss {key sig key' sig' : Bytes} {keys sigs : List Bytes} {m m' m'' : Machine}
      (henough : sigs.length ≤ keys.length) (hcheck : check sig key m = .ok false m')
      (hrest : Tries check keys (sig :: sigs) m' sig' key' m'') :
      Tries check (key :: keys) (sig :: sigs) m sig' key' m''

/-- The operation, started on `m`, comes to the trial. -/
inductive Tried (r : Rules) (script : List Instruction) (m : Machine) : Operation → Trial → Prop
  | single {checked : Bool} {c : Context} {key sig : Bytes} {rest : Stack}
      (hcontext : r.context = some c) (hmain : m.main = key :: sig :: rest)
      (hsignature : r.checkSignature sig = .ok ()) (hkey : r.checkKey key = .ok ()) :
      Tried r script m (.crypto (.checkSig checked))
        { context := c, signatures := [sig], signature := sig, key
          code := codeFor r (signedPart script m.codeStart) [sig] sig
          found := { m with main := rest } }
  | multiple {checked : Bool} {c : Context} {keys sigs : List Bytes} {dummy sig key : Bytes}
      {m₁ m₂ m₃ m₄ : Machine} (hcontext : r.context = some c)
      (hkeys : popCounted r r.limits.maxKeysPerMultisig
        (fun n => .keyCount n r.limits.maxKeysPerMultisig) (countOperations r) m = .ok keys m₁)
      (hsigs : popCounted r keys.length (fun n => .signatureCount n keys.length)
        (fun _ => return ()) m₁ = .ok sigs m₂)
      (hdummy : pop m₂ = .ok dummy m₃)
      (htries : Tries (checkPair r c (signedPart script m₃.codeStart)
        (sigs.filter fun sig => !r.usesForkId sig)) keys sigs m₃ sig key m₄)
      (hsignature : r.checkSignature sig = .ok ()) (hkey : r.checkKey key = .ok ()) :
      Tried r script m (.crypto (.checkMultisig checked))
        { context := c, signatures := sigs, signature := sig, key
          code := codeFor r (signedPart script m₃.codeStart)
            (sigs.filter fun sig => !r.usesForkId sig) sig
          found := m₄ }

variable {r : Rules} {L : Law} {m : Machine}

/-! ## Encodings -/

theorem formal_of_checkSighashByte {b : UInt8} {fault : Fault}
    (h : r.checkSighashByte b = .error fault) : fault.Formal := by
  unfold Rules.checkSighashByte at h
  simp only [throw, throwThe, MonadExceptOf.throw, bind, Except.bind, pure, Except.pure] at h
  split at h
  · split at h
    · cases h
      trivial
    · split at h
      · cases h
        trivial
      · split at h
        · cases h
          trivial
        · cases h
  · cases h

theorem formal_of_checkDer {der : Bytes} {fault : Fault} (h : r.checkDer der = .error fault) :
    fault.Formal := by
  unfold Rules.checkDer at h
  simp only [throw, throwThe, MonadExceptOf.throw, bind, Except.bind, pure, Except.pure] at h
  split at h
  · cases hcheck : Der.check der with
    | error cause =>
      rw [hcheck] at h
      cases h
      trivial
    | ok u =>
      rw [hcheck] at h
      dsimp only at h
      split at h
      · split at h
        · cases h
          trivial
        · split at h
          · cases h
            trivial
          · cases h
      · cases h
  · cases h

theorem formal_of_checkSignature {sig : Bytes} {fault : Fault}
    (h : r.checkSignature sig = .error fault) : fault.Formal := by
  unfold Rules.checkSignature at h
  split at h
  · cases h
  · next b hb =>
    cases hbyte : r.checkSighashByte b with
    | error fault' =>
      rw [hbyte] at h
      cases h
      exact formal_of_checkSighashByte hbyte
    | ok u =>
      rw [hbyte] at h
      exact formal_of_checkDer h

theorem formal_of_checkKey {key : Bytes} {fault : Fault} (h : r.checkKey key = .error fault) :
    fault.Formal := by
  unfold Rules.checkKey at h
  split at h
  · cases h
    trivial
  · cases h

/-! ## Conditionals -/

theorem unbalanced_of_turning {b : Branches} {fault : Fault} (h : b.turning = .error fault) :
    fault.Unbalanced := by
  rcases Branches.turning_eq_error h with ⟨-, rfl⟩ | ⟨-, rfl⟩ <;> exact ⟨rfl, nofun⟩

theorem unbalanced_of_closing {b : Branches} {fault : Fault} (h : b.closing = .error fault) :
    fault.Unbalanced := by
  obtain ⟨-, rfl⟩ := Branches.closing_eq_error h
  exact ⟨rfl, nofun⟩

/-! ## Trials -/

/-- A trial does nothing but ask its question. -/
theorem keeps_checkSig (hL : L.Inherited r) {t : Trial} (hask : L.Permits r t)
    (hcontext : r.context = some t.context) :
    Keeps L (checkSig r t.context t.signature t.key t.code) t.found := by
  unfold checkSig
  cases hb : t.signature.getLast? with
  | none => exact keeps_pure hL false
  | some b =>
    dsimp only
    split
    · refine Keeps.bind hL ?_ fun _ _ _ => keeps_pure hL _
      have hmoves := hask _ ⟨b, hb, rfl⟩
      unfold askDigest
      cases hdigest : t.context.digest r.input t.code (.ofByte b) (r.usesForkId t.signature) with
      | ok digest =>
        rw [hdigest] at hmoves
        exact keeps_of_ok rfl (hmoves _)
      | error cause =>
        rw [hdigest] at hmoves
        exact keeps_of_error rfl
          (hL.before (hmoves _) (hL.stop _ ⟨_, _, _, _, hcontext, hdigest⟩))
    · exact keeps_pure hL false

theorem keeps_matchKeys (hL : L.Inherited r) {check : (sig key : Bytes) → Run Bool}
    (keys sigs : List Bytes)
    (h : ∀ sig key m', Tries check keys sigs m sig key m' → Keeps L (check sig key) m') :
    Keeps L (matchKeys check keys sigs) m := by
  induction keys generalizing sigs m with
  | nil => cases sigs <;> exact keeps_pure hL _
  | cons key keys ih =>
    cases sigs with
    | nil => exact keeps_pure hL true
    | cons sig sigs =>
      refine keeps_ite (fun _ => keeps_pure hL false) fun hshort => ?_
      have henough : sigs.length ≤ keys.length := by simpa using hshort
      refine (h sig key m (.here henough)).bind hL fun found m' hcheck => ?_
      cases found with
      | true => exact ih sigs fun sig' key' m'' htries => h _ _ _ (.hit henough hcheck htries)
      | false =>
        exact ih (sig :: sigs) fun sig' key' m'' htries => h _ _ _ (.miss henough hcheck htries)

/-! ## Instructions -/

section

variable (hL : L.Frames r)

include hL

theorem keeps_checkSingle (script : List Instruction) (op : Opcode) (checked : Bool)
    (hask : ∀ t, Tried r script m (.crypto (.checkSig checked)) t → L.Permits r t) :
    Keeps L (checkSingle r script op) m := by
  have hi := hL.toInherited
  refine (keeps_requireContext hi op).bind hi fun c m hc => ?_
  obtain ⟨hcontext, rfl⟩ := requireContext_eq_ok hc
  refine (keeps_pop hL).bind hi fun key m₂ hpop => ?_
  obtain ⟨below, hmain, rfl⟩ := pop_eq_ok hpop
  refine (keeps_pop hL).bind hi fun sig m₃ hpop' => ?_
  obtain ⟨rest, hbelow, rfl⟩ := pop_eq_ok hpop'
  refine (keeps_ofExcept hi fun _ => formal_of_checkSignature).bind hi fun _ m₄ hs => ?_
  obtain ⟨hsignature, rfl⟩ := ofExcept_eq_ok hs
  refine (keeps_ofExcept hi fun _ => formal_of_checkKey).bind hi fun _ m₅ hk => ?_
  obtain ⟨hkey, rfl⟩ := ofExcept_eq_ok hk
  obtain rfl : below = sig :: rest := hbelow
  have htried : Tried r script m (.crypto (.checkSig checked)) _ :=
    .single hcontext hmain hsignature hkey
  refine Keeps.bind hi (keeps_of_ok rfl (hi.refl _)) fun part m₆ hpart => ?_
  cases hpart
  exact (keeps_checkSig hi (hask _ htried) hcontext).bind hi fun _ _ _ =>
    keeps_require_bind hi trivial fun _ => keeps_push hL _

theorem keeps_popCounted (bound : Nat) {fault : Int → Fault} {before : Nat → Run Unit}
    (hfault : ∀ n, (fault n).Ordinary r) (hbefore : ∀ n m', Keeps L (before n) m') :
    Keeps L (popCounted r bound fault before) m :=
  (keeps_popNumber hL).bind hL.toInherited fun _ _ _ =>
    keeps_require_bind hL.toInherited (hfault _) fun _ =>
    (hbefore _ _).bind hL.toInherited fun _ _ _ => keeps_onMain hL (Stack.plain_popMany _)

theorem keeps_popKeys :
    Keeps L (popCounted r r.limits.maxKeysPerMultisig
      (fun n => .keyCount n r.limits.maxKeysPerMultisig) (countOperations r)) m :=
  keeps_popCounted hL _ (fun _ => by trivial) fun n _ => keeps_countOperations hL n

theorem keeps_popSignatures (bound : Nat) :
    Keeps L (popCounted r bound (fun n => .signatureCount n bound) fun _ => return ()) m :=
  keeps_popCounted hL _ (fun _ => by trivial) fun _ _ => keeps_pure hL.toInherited ()

theorem keeps_checkMultiple (script : List Instruction) (op : Opcode) (checked : Bool)
    (hask : ∀ t, Tried r script m (.crypto (.checkMultisig checked)) t → L.Permits r t) :
    Keeps L (checkMultiple r script op) m := by
  have hi := hL.toInherited
  refine (keeps_requireContext hi op).bind hi fun c m hc => ?_
  obtain ⟨hcontext, rfl⟩ := requireContext_eq_ok hc
  refine (keeps_popKeys hL).bind hi fun keys m₁ hkeys => ?_
  refine (keeps_popSignatures hL keys.length).bind hi fun sigs m₂ hsigs => ?_
  refine (keeps_pop hL).bind hi fun dummy m₃ hdummy => keeps_require_bind hi trivial fun _ => ?_
  refine Keeps.bind hi (keeps_of_ok rfl (hi.refl _)) fun part m' hpart => ?_
  cases hpart
  refine (keeps_matchKeys hi keys sigs fun sig key m₄ htries => ?_).bind hi fun _ _ _ =>
    keeps_require_bind hi trivial fun _ => keeps_push hL _
  refine (keeps_ofExcept hi fun _ => formal_of_checkSignature).bind hi fun _ m₅ hs => ?_
  obtain ⟨hsignature, rfl⟩ := ofExcept_eq_ok hs
  refine (keeps_ofExcept hi fun _ => formal_of_checkKey).bind hi fun _ m₆ hk => ?_
  obtain ⟨hkey, rfl⟩ := ofExcept_eq_ok hk
  have htried : Tried r script m (.crypto (.checkMultisig checked)) _ :=
    .multiple hcontext hkeys hsigs hdummy htries hsignature hkey
  exact keeps_checkSig hi (hask _ htried) hcontext

theorem keeps_crypto (script : List Instruction) (offset : Nat) (op : Opcode) (x : CryptoOp)
    (hseparator : x = .codeSeparator → L.moves m { m with codeStart := offset + 1 })
    (hask : ∀ t, Tried r script m (.crypto x) t → L.Permits r t) :
    Keeps L (crypto r script offset op x) m := by
  have hi := hL.toInherited
  cases x with
  | hash f => exact (keeps_pop hL).bind hi fun _ _ _ => keeps_push hL _
  | codeSeparator => exact keeps_of_ok rfl (hseparator rfl)
  | checkSig checked =>
    exact (keeps_checkSingle hL script op checked hask).bind hi fun _ _ _ =>
      keeps_ite (fun _ => keeps_verifyTop hL op) fun _ => keeps_pure hi ()
  | checkMultisig checked =>
    exact (keeps_checkMultiple hL script op checked hask).bind hi fun _ _ _ =>
      keeps_ite (fun _ => keeps_verifyTop hL op) fun _ => keeps_pure hi ()

omit hL in
theorem keeps_onBranches {f : Branches → Except Fault Branches} (hsteers : L.Steers)
    (hfault : ∀ b fault, f b = .error fault → fault.Unbalanced) : Keeps L (onBranches f) m := by
  cases hf : f m.branches with
  | ok b => exact keeps_of_ok (onBranches_of_ok hf) (hsteers.branches m b)
  | error fault =>
    exact keeps_of_error (onBranches_of_error hf) (hsteers.refuses m (hfault _ _ hf))

theorem keeps_flow (executing : Bool) (op : Opcode) (x : FlowOp)
    (hsteers : Operation.isConditional (.flow x) = true → L.Steers) :
    Keeps L (flow r executing op x) m := by
  have hi := hL.toInherited
  cases x with
  | opening onTrue =>
    refine keeps_ite (fun _ => (keeps_popCondition hL).bind hi fun _ _ _ => ?_) fun _ => ?_
    all_goals
      refine keeps_onBranches (hsteers rfl) ?_
      intro b fault h
      cases h
  | turning => exact keeps_onBranches (hsteers rfl) fun _ _ => unbalanced_of_turning
  | closing => exact keeps_onBranches (hsteers rfl) fun _ _ => unbalanced_of_closing
  | verify => exact keeps_verifyTop hL op
  | giveUp => exact keeps_throw hi trivial

/-- **What an operation may do.**  It keeps every law that allows the elementary changes, the place
of the separator and the conditionals where the operation is one of these, and the questions of the
trials that the operation comes to. -/
theorem keeps_perform (script : List Instruction) (offset : Nat) (executing : Bool)
    (i : Instruction)
    (hsteers : i.isConditional = true → L.Steers)
    (hseparator : i.operation = .crypto .codeSeparator →
      L.moves m { m with codeStart := offset + 1 })
    (hask : ∀ t, Tried r script m i.operation t → L.Permits r t) :
    Keeps L (perform r script offset executing i) m := by
  have hi := hL.toInherited
  unfold Instruction.isConditional at hsteers
  unfold perform
  cases hop : i.operation with
  | push => exact keeps_push hL _
  | flow x =>
    rw [hop] at hsteers
    exact keeps_flow hL executing _ x hsteers
  | stack x => exact keeps_stack hL x
  | splice x => exact keeps_splice hL x
  | bitwise x => exact keeps_bitwise hL _ x
  | arithmetic x => exact keeps_arithmetic hL _ x
  | crypto x =>
    rw [hop] at hseparator hask
    exact keeps_crypto hL script offset _ x (fun hx => hseparator (congrArg _ hx)) hask
  | lockTime x => exact keeps_lockTime hi _ x
  | nop upgradable => exact keeps_nop hi _ upgradable
  | reserved always => exact keeps_throw hi trivial
  | disabled => exact keeps_throw hi trivial
  | invalid => exact keeps_throw hi trivial

end

/-! ## What is known of a trial -/

section

variable {script : List Instruction} {x : Operation} {t : Trial}

theorem Tries.mem {check : (sig key : Bytes) → Run Bool} {keys sigs : List Bytes} {sig key : Bytes}
    {m' : Machine} (h : Tries check keys sigs m sig key m') : sig ∈ sigs ∧ key ∈ keys := by
  induction h with
  | here _ => exact ⟨.head _, .head _⟩
  | hit _ _ _ ih => exact ⟨.tail _ ih.1, .tail _ ih.2⟩
  | miss _ _ _ ih => exact ⟨ih.1, .tail _ ih.2⟩

/-- A signature is tried only after its encoding has been checked. -/
theorem Tried.checkSignature_eq (h : Tried r script m x t) :
    r.checkSignature t.signature = .ok () := by
  cases h with
  | single _ _ hsignature _ => exact hsignature
  | multiple _ _ _ _ _ hsignature _ => exact hsignature

theorem Tried.signature_mem (h : Tried r script m x t) : t.signature ∈ t.signatures := by
  cases h with
  | single => exact .head _
  | multiple _ _ _ _ htries => exact htries.mem.1

theorem main_of_countOperations {n : Nat} {u : Unit} {m' : Machine}
    (h : countOperations r n m = .ok u m') : m'.main = m.main := by
  obtain ⟨-, rfl⟩ := require_eq_ok (m := { m with operations := m.operations + n }) h
  rfl

/-- The signatures of a check are elements of the stack. -/
theorem Tried.signatures_subset (h : Tried r script m x t) :
    ∀ sig ∈ t.signatures, sig ∈ m.main := by
  cases h with
  | single _ hmain =>
    intro sig hsig
    rw [hmain]
    exact .tail _ (List.mem_cons.mpr (.inl (List.mem_singleton.mp hsig)))
  | multiple _ hkeys hsigs =>
    obtain ⟨a, hmain⟩ := popCounted_eq_ok (fun _ _ _ => main_of_countOperations) hkeys
    obtain ⟨b, hmain₁⟩ := popCounted_eq_ok (fun _ _ _ hbefore => by cases hbefore; rfl) hsigs
    intro sig hsig
    rw [hmain, hmain₁]
    simp only [List.mem_cons, List.mem_append]
    exact .inr (.inr (.inr (.inl hsig)))

/-- The law that the place of the separator stays. -/
theorem frames_codeStart (r : Rules) :
    (Law.onSuccess fun m m' => m'.codeStart = m.codeStart).Frames r where
  refl _ := rfl
  trans h h' := h'.trans h
  before _ _ := trivial
  stop _ _ _ := trivial
  main _ _ := rfl
  alt _ _ := rfl
  count _ _ _ := rfl
  overcount _ _ _ := trivial

/-- The bytes that are handed to the digest, for either check: those of the signed part, or what is
left of it without the signatures that use the older digest. -/
theorem Tried.code_eq (h : Tried r script m x t) :
    t.code = codeFor r (signedPart script m.codeStart)
      (t.signatures.filter fun sig => !r.usesForkId sig) t.signature := by
  cases h with
  | single =>
    unfold codeFor
    dsimp only
    split
    · rfl
    · next hlegacy => rw [List.filter_cons_of_pos (by simpa using hlegacy), List.filter_nil]
  | @multiple _ _ keys _ _ _ _ m₁ m₂ m₃ _ _ hkeys hsigs hdummy =>
    have hL := frames_codeStart r
    have h₁ : m₁.codeStart = m.codeStart := (keeps_popKeys hL).moves hkeys
    have h₂ : m₂.codeStart = m₁.codeStart := (keeps_popSignatures hL _).moves hsigs
    have h₃ : m₃.codeStart = m₂.codeStart := (keeps_pop hL).moves hdummy
    rw [h₃, h₂, h₁]

end

end Run

end CoinScript
