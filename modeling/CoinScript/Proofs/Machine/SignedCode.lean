import CoinScript.Proofs.Machine.Places
import CoinScript.Proofs.Script.Decoding
import CoinScript.Proofs.Script.Skeleton

/-!
# The signed part of a script, in bytes

The machine keeps the place of the last separator as the number of an instruction, and builds the
bytes that a signature commits to from the instructions that it has read.  What signatures are made
for is a byte string.  This module says which, without instructions being rebuilt:

* `lastSeparated_of_executes`: what the instructions from the kept place on are written as is what
  follows the last executed separator in the bytes of the script (`LastSeparated`);
* for the older digest, `withoutSignatures` leaves out the instructions whose bytes are the shortest
  push of one of the signatures, and nothing else (`pushesOneOf_iff`), reads as what is left
  (`scan_withoutSignatures`), and is indifferent to the order of the signatures and to repetition.

`scriptCode_eq_signedPortion` puts this together for every trial of every run.
-/

namespace CoinScript

/-! ## Leaving signatures out -/

section

variable {is : List Instruction} {sigs sigs' : List Bytes}

/-- An instruction is left out exactly if its bytes are what pushes one of the signatures at the end
of a script. -/
theorem Instruction.pushesOneOf_iff {i : Instruction} (hi : i.Readable) :
    i.pushesOneOf sigs = true ↔
      ∃ sig ∈ sigs, sig ≠ [] ∧ Script.appendPush [] sig = .ok i.encode := by
  have happend : ∀ sig, Script.appendPush [] sig = Script.pushed sig := by
    intro sig
    unfold Script.appendPush
    cases Script.pushed sig <;> rfl
  unfold pushesOneOf
  rw [List.any_eq_true]
  simp only [Bool.and_eq_true, bne_iff_ne, ne_eq]
  refine exists_congr fun sig => and_congr_right fun _ => and_congr_right fun hne => ?_
  rw [happend, isPushOf_iff hi hne]

/-- What is left of a sequence of instructions is read back. -/
theorem scan_withoutSignatures (h : ∀ i ∈ is, i.Readable) (sigs : List Bytes) :
    Script.scan (withoutSignatures is sigs) = (is.filter fun i => !i.pushesOneOf sigs, []) :=
  Script.scan_encode fun i hi => h i (List.mem_filter.mp hi).1

/-- The order of the signatures does not matter. -/
theorem withoutSignatures_perm (is : List Instruction) (h : sigs.Perm sigs') :
    withoutSignatures is sigs = withoutSignatures is sigs' := by
  have hsame : ∀ i : Instruction, i.pushesOneOf sigs = i.pushesOneOf sigs' := by
    intro i
    rw [Bool.eq_iff_iff, Instruction.pushesOneOf, Instruction.pushesOneOf, List.any_eq_true,
      List.any_eq_true]
    exact exists_congr fun sig => and_congr_left fun _ => h.mem_iff
  unfold withoutSignatures
  rw [funext hsame]

/-- Leaving out the same signatures again changes nothing. -/
theorem withoutSignatures_again (h : ∀ i ∈ is, i.Readable) (sigs : List Bytes) :
    withoutSignatures (Script.scan (withoutSignatures is sigs)).1 sigs =
      withoutSignatures is sigs := by
  rw [scan_withoutSignatures h]
  unfold withoutSignatures
  rw [List.filter_filter]
  simp only [Bool.and_self]

end

/-! ## The last separator -/

/-- The separator is the opcode `0xab` and no other. -/
theorem Operation.ofCode_eq_codeSeparator_iff (op : Opcode) :
    Operation.ofCode op = .crypto .codeSeparator ↔ op = 0xab :=
  of_decide_eq_true (Opcode.forall_of_lt
    (p := fun op => decide (Operation.ofCode op = .crypto .codeSeparator ↔ op = 0xab))
    (by decide +kernel) op)

namespace Run

variable {r : Rules}

/-- The run of a script executes a separator, which is the instruction with the given number. -/
def Separates (r : Rules) (script : List Instruction) (first : Machine) (offset : Nat) : Prop :=
  ∃ i m, Executes r script first offset i m ∧ i.code = 0xab

/-- The bytes of a script after the last separator that its run has executed before the instruction
with the given number: all of them if there is none. -/
inductive LastSeparated (r : Rules) (s : Script) (first : Machine) (offset : Nat) : Bytes → Prop
  | whole (hnone : ∀ k < offset, ¬Separates r (Script.scan s).1 first k) :
      LastSeparated r s first offset s
  | after {k : Nat} {before suffix : Bytes} (hk : k < offset)
      (hseparates : Separates r (Script.scan s).1 first k)
      (hlast : ∀ j < offset, k < j → ¬Separates r (Script.scan s).1 first j)
      (hbefore : before = Script.encode ((Script.scan s).1.take (k + 1)))
      (hs : s = before ++ suffix) :
      LastSeparated r s first offset suffix

section

variable {script : List Instruction} {first m m' : Machine} {offset : Nat} {i : Instruction}

/-- An executed separator is the new place. -/
theorem codeStart_of_step (hstep : step r script offset i m = .ok () m')
    (hexecuting : m.branches.isExecuting = true) (hi : i.code = 0xab) :
    m'.codeStart = offset + 1 := by
  have hop : i.operation = .crypto .codeSeparator :=
    (Operation.ofCode_eq_codeSeparator_iff i.code).mpr hi
  obtain ⟨-, -, -, ⟨hnot, -⟩ | ⟨-, -, journal, hperform⟩⟩ := step_eq_ok hstep
  · rw [hexecuting] at hnot
    cases hnot
  · unfold perform at hperform
    rw [hop] at hperform
    cases hperform
    rfl

/-- No other instruction moves the place. -/
theorem codeStart_of_step_ne (hstep : step r script offset i m = .ok () m')
    (h : ¬(m.branches.isExecuting = true ∧ i.code = 0xab)) : m'.codeStart = m.codeStart :=
  (keeps_step (frames_codeStart r) (fun _ _ => rfl)
    (fun _ => ⟨fun _ _ => rfl, fun _ _ _ => trivial⟩)
    (fun hexecuting hop =>
      absurd ⟨hexecuting, (Operation.ofCode_eq_codeSeparator_iff i.code).mp hop⟩ h)
    (fun _ _ _ _ _ _ => rfl)).moves hstep

/-- **The kept place is behind the last executed separator**, or at the start. -/
theorem codeStart_of_reaches (h : Reaches r script first offset m) :
    (m.codeStart = 0 ∧ ∀ k < offset, ¬Separates r script first k) ∨
      ∃ k < offset, Separates r script first k ∧ m.codeStart = k + 1 ∧
        ∀ j < offset, k < j → ¬Separates r script first j := by
  induction h with
  | start => exact .inl ⟨rfl, fun k hk => absurd hk (Nat.not_lt_zero k)⟩
  | @next offset m m' i hreaches hi hstep hsize ih =>
    by_cases hhere : m.branches.isExecuting = true ∧ i.code = 0xab
    · refine .inr ⟨offset, Nat.lt_succ_self offset, ⟨i, m, ⟨hreaches, hi, hhere.1⟩, hhere.2⟩,
        codeStart_of_step hstep hhere.1 hhere.2, fun j hj hlt => ?_⟩
      omega
    · -- the instruction is no separator, so the last one is still the last
      have hnot : ¬Separates r script first offset := by
        rintro ⟨i', found, hexecutes, hcode⟩
        obtain rfl := hreaches.unique hexecutes.reaches
        have hsame := hexecutes.instruction
        rw [hi] at hsame
        cases hsame
        exact hhere ⟨hexecutes.executing, hcode⟩
      have hkept := codeStart_of_step_ne hstep hhere
      rcases ih with ⟨hzero, hnone⟩ | ⟨k, hk, hseparates, hstart, hlast⟩
      · refine .inl ⟨hkept.trans hzero, fun j hj => ?_⟩
        rcases Nat.lt_succ_iff_lt_or_eq.mp hj with hj | rfl
        · exact hnone j hj
        · exact hnot
      · refine .inr ⟨k, Nat.lt_succ_of_lt hk, hseparates, hkept.trans hstart, fun j hj hlt => ?_⟩
        rcases Nat.lt_succ_iff_lt_or_eq.mp hj with hj | rfl
        · exact hlast j hj hlt
        · exact hnot

end

/-- **The signed part is written as the bytes after the last executed separator.** -/
theorem lastSeparated_of_reaches {s : Script} {first m : Machine} {offset : Nat}
    (hparses : (Script.scan s).2 = []) (h : Reaches r (Script.scan s).1 first offset m) :
    LastSeparated r s first offset
      (Script.encode (signedPart (Script.scan s).1 m.codeStart)) := by
  unfold signedPart
  have hs : Script.encode (Script.scan s).1 = s := Script.encode_scan_of_tail hparses
  rcases codeStart_of_reaches h with ⟨hzero, hnone⟩ | ⟨k, hk, hseparates, hstart, hlast⟩
  · rw [hzero, List.drop_zero, hs]
    exact .whole hnone
  · rw [hstart]
    refine .after hk hseparates hlast rfl ?_
    rw [← Script.encode_append, List.take_append_drop, hs]

/-! ## Trials -/

/-- The bytes of the instruction push one of the signatures that use the older digest. -/
def PushesLegacy (r : Rules) (t : Trial) (i : Instruction) : Prop :=
  ∃ sig ∈ t.signatures, r.usesForkId sig = false ∧ sig ≠ [] ∧
    Script.appendPush [] sig = .ok i.encode

/-- The bytes that are handed to the digest in a trial, by what follows the last executed
separator.  With the amount they are just that.  For the older digest they are what is left without
the instructions that push one of the signatures: they read as these instructions, do not depend on
the order of the signatures and stay as they are when the signatures are left out again. -/
structure SignedPortion (r : Rules) (t : Trial) (suffix : Bytes) : Prop where
  amount : r.usesForkId t.signature = true → t.code = suffix
  legacy : r.usesForkId t.signature = false → ∃ keep : Instruction → Bool,
    (∀ i ∈ (Script.scan suffix).1, keep i = false ↔ PushesLegacy r t i) ∧
      t.code = Script.encode ((Script.scan suffix).1.filter keep) ∧
      Script.scan t.code = ((Script.scan suffix).1.filter keep, [])
  unordered : r.usesForkId t.signature = false → ∀ sigs : List Bytes, sigs.Perm t.signatures →
    withoutSignatures (Script.scan suffix).1 (sigs.filter fun sig => !r.usesForkId sig) = t.code
  again : r.usesForkId t.signature = false →
    withoutSignatures (Script.scan t.code).1 (t.signatures.filter fun sig => !r.usesForkId sig) =
      t.code

theorem signedPortion_of_tried {script part : List Instruction} {m : Machine} {x : Operation}
    {t : Trial} (h : Tried r script m x t) (hpart : part = signedPart script m.codeStart)
    (hreadable : ∀ i ∈ part, i.Readable) : SignedPortion r t (Script.encode part) := by
  have hscan : Script.scan (Script.encode part) = (part, []) := Script.scan_encode hreadable
  have hcode := h.code_eq
  rw [← hpart] at hcode
  unfold codeFor at hcode
  have hlegacy : r.usesForkId t.signature = false → t.code =
      withoutSignatures part (t.signatures.filter fun sig => !r.usesForkId sig) := by
    intro hnot
    rwa [hnot, if_neg Bool.false_ne_true] at hcode
  constructor
  · intro huses
    rwa [huses, if_pos rfl] at hcode
  · intro hnot
    rw [hlegacy hnot, hscan, scan_withoutSignatures hreadable]
    refine ⟨_, fun i hi => ?_, rfl, rfl⟩
    rw [Bool.not_eq_false', Instruction.pushesOneOf_iff (hreadable i hi)]
    simp only [List.mem_filter, Bool.not_eq_true', PushesLegacy, and_assoc]
  · intro hnot sigs hperm
    rw [hlegacy hnot, hscan]
    exact withoutSignatures_perm part (hperm.filter _)
  · intro hnot
    rw [hlegacy hnot]
    exact withoutSignatures_again hreadable _

/-- What is handed to the digest at a place of a run. -/
theorem exists_signedPortion {unlocking locking s : Script} {m first found : Machine}
    {offset : Nat} {i : Instruction} {t : Trial}
    (h : TrialAt r unlocking locking m s first offset i found t) :
    ∃ suffix, LastSeparated r s first offset suffix ∧ SignedPortion r t suffix :=
  ⟨_, lastSeparated_of_reaches h.begins.parses h.executes.reaches,
    signedPortion_of_tried h.tried rfl fun i hi =>
      Script.readable_of_mem_scan i (List.mem_of_mem_drop hi)⟩

end Run

/-- **The bytes that are handed to the digest are the signed portion of the script.**  At every
trial of every run they are made from what follows the last separator that was executed in the
script that is running; and every digest that was asked for was asked for with the bytes of such a
trial. -/
theorem scriptCode_eq_signedPortion :
    (∀ (r : Rules) (unlocking locking : Script) (m : Machine) (s : Script) (first : Machine)
      (offset : Nat) (i : Instruction) (found : Machine) (t : Trial),
      Run.TrialAt r unlocking locking m s first offset i found t →
      ∃ suffix, Run.LastSeparated r s first offset suffix ∧ Run.SignedPortion r t suffix) ∧
    ∀ (r : Rules) (unlocking locking : Script), ∀ q ∈ (execute r unlocking locking).requests,
      ∃ e s first offset i found t suffix, r.effective = .ok e ∧
        Run.TrialAt e unlocking locking (.begun r unlocking locking) s first offset i found t ∧
        Run.LastSeparated e s first offset suffix ∧ Run.SignedPortion e t suffix ∧
        q.scriptCode = t.code := by
  refine ⟨fun _ _ _ _ _ _ _ _ _ _ h => Run.exists_signedPortion h, fun r unlocking locking q hq => ?_⟩
  rcases execute_cases r unlocking locking with ⟨-, -, hnone⟩ | ⟨e, he, hasked, -⟩
  · rw [hnone] at hq
    cases hq
  · obtain ⟨s, first, offset, i, found, t, ht, b, -, rfl⟩ := hasked q hq
    obtain ⟨suffix, hsuffix, hportion⟩ := Run.exists_signedPortion ht
    exact ⟨e, s, first, offset, i, found, t, suffix, he, ht, hsuffix, hportion, rfl⟩

/-! ## A signature in the signed part -/

namespace OwnSignature

/-- A signature for the older digest. -/
def signature : Bytes := Signature.toDer ⟨1, 1⟩ ++ [0x01]

/-- The signature and the base of the curve as a key. -/
def unlocking : Script :=
  (Instruction.push signature).encode ++
    (Instruction.push (⟨Secp256k1.base⟩ : PublicKey).compressed).encode

/-- A separator, the signature once more, which is dropped, and the check. -/
def locking : Script := [0xab] ++ (Instruction.push signature).encode ++ [0x75, 0xac]

/-- Rules without any flag, and a transaction that has the same digest for everything. -/
def rules : Rules :=
  ⟨.consensus, .none, .secp256k1, some ⟨fun _ _ _ _ => .ok (.zero 32), fun _ _ _ _ => [], 0, 1,
    fun _ => none⟩, 0⟩

/-- What is handed to the digest is the rest of the locking script without the signature. -/
theorem signedPortion_question :
    ∃ q, (execute rules unlocking locking).requests = [q] ∧ q.scriptCode = [0x75, 0xac] ∧
      ∃ e s first offset i found t suffix, rules.effective = .ok e ∧
        Run.TrialAt e unlocking locking (.begun rules unlocking locking) s first offset i found t ∧
        Run.LastSeparated e s first offset suffix ∧ Run.SignedPortion e t suffix ∧
        q.scriptCode = t.code := by
  have hcodes : (execute rules unlocking locking).requests.map (·.scriptCode) = [[0x75, 0xac]] := by
    decide +kernel
  obtain ⟨q, hq, hcode⟩ := List.map_eq_singleton_iff.mp hcodes
  have hmem : q ∈ (execute rules unlocking locking).requests := by
    rw [hq]
    exact .head _
  exact ⟨q, hq, hcode, scriptCode_eq_signedPortion.2 rules unlocking locking q hmem⟩

end OwnSignature

end CoinScript
