import CoinScript.Proofs.Machine.Handover
import CoinScript.Proofs.Machine.PushOnly
import CoinScript.Proofs.Machine.Straight

/-!
# Locks by the hash of a script

The lock `HASH160 h EQUAL` names a script by its hash.  A spend of it runs three scripts: the
unlocking script, the lock, and the script that the unlocking script pushed last.  The theorem
`PayToScriptHash.execute_lock_ok_iff` says that the one in the middle only compares: a spend is
accepted exactly if the unlocking script holds pushes, the last of them is a script with the hash,
and that script succeeds on what was pushed before it.

What the lock takes and leaves on the stack is `leavesOn_lock_iff`.  While it runs there is one
element more than it finds, which is where the bound on the depth comes from.  There is no bound on
the length of the named script: it was pushed, so it is shorter than a script may be.
-/

namespace CoinScript

namespace PayToScriptHash

/-! ## The lock -/

/-- The instructions of the lock. -/
def lockInstructions (h : Hash160) : List Instruction :=
  [⟨0xa9, none⟩, .push h.bytes, ⟨0x87, none⟩]

theorem encode_lockInstructions (h : Hash160) :
    Script.encode (lockInstructions h) = Script.payToScriptHash h := by
  simp only [lockInstructions, Script.encode_cons, Script.encode_nil, Instruction.encode_push_hash]
  rfl

theorem scan_lock (h : Hash160) :
    Script.scan (Script.payToScriptHash h) = (lockInstructions h, []) := by
  rw [← encode_lockInstructions]
  refine Script.scan_encode fun i hi => ?_
  simp only [lockInstructions, List.mem_cons, List.not_mem_nil, or_false] at hi
  rcases hi with rfl | rfl | rfl
  · exact .bare rfl
  · exact Instruction.readable_push_hash h
  · exact .bare rfl

theorem length_lock (h : Hash160) : (Script.payToScriptHash h).length = 23 := by
  simp [Script.payToScriptHash]

theorem isPayToScriptHash_lock (h : Hash160) :
    Script.isPayToScriptHash (Script.payToScriptHash h) = true := by
  have hdrop : (Script.payToScriptHash h).drop 22 = [0x87] := by
    have hlength : ([0xa9, 0x14] ++ h.bytes).length = 22 := by simp
    rw [Script.payToScriptHash, ← hlength, List.drop_left]
  exact decide_eq_true ⟨length_lock h, rfl, hdrop⟩

/-! ## What the lock does -/

variable {r : Rules} {m after : Machine} {h : Hash160} {left locked : Stack}

/-- The lock replaces the top by the answer whether that has the hash. -/
theorem script_lock {s : Bytes} {below : Stack} (hlimits : r.limits = .consensus)
    (hmain : m.main = s :: below) (halt : m.alt = []) (hdepth : below.length ≤ 998) :
    ∃ after, Run.script r (lockInstructions h) m = .ok () after ∧
      after.main = Number.ofTruth (h.bytes == (hash160 s).bytes) :: below := by
  have hsize : r.limits.maxElementSize = 520 := by rw [hlimits]; rfl
  have hops : r.limits.maxOps = 201 := by rw [hlimits]; rfl
  have hstack : r.limits.maxStackSize = 1000 := by rw [hlimits]; rfl
  have hblock : h.bytes.length = 20 := Block.length_bytes _
  have hstart : Run.Comes r (lockInstructions h) m 0 (s :: below) 0 := by
    rw [← hmain]
    exact Run.comes_start halt
  have hhash := hstart.hash160 rfl (by omega) (by omega)
  have hpushed := hhash.push (b := h.bytes) rfl (by omega) (by omega) (by omega)
    (by rw [List.length_cons]; omega)
  have hequal := hpushed.equal rfl (by omega) (by omega)
  obtain ⟨after, hafter, hleft, -⟩ := Run.script_of_comes hequal
  exact ⟨after, hafter, hleft⟩

/-- What `HASH160` found and left, if it succeeds. -/
theorem hash160_of_step {script : List Instruction} {offset : Nat}
    (hexecuting : m.branches.isExecuting = true)
    (hstep : Run.step r script offset ⟨0xa9, none⟩ m = .ok () after) :
    ∃ s below, m.main = s :: below ∧ after.main = (hash160 s).bytes :: below ∧
      after.branches = m.branches := by
  obtain ⟨-, -, journal, hperform⟩ := Run.step_executing_eq_ok hexecuting hstep
  obtain ⟨s, m', hpop, hpush⟩ := bind_eq_ok hperform
  obtain ⟨below, hmain, rfl⟩ := Run.pop_eq_ok hpop
  cases hpush
  exact ⟨s, below, hmain, rfl, rfl⟩

/-- If the lock succeeds it found an element, and there was room for another. -/
theorem exists_top_of_lock (hrun : Run.script r (lockInstructions h) m = .ok () after) :
    ∃ s below, m.main = s :: below ∧ below.length + 2 ≤ r.limits.maxStackSize := by
  obtain ⟨m₃, hinstructions, -, -⟩ := Run.script_eq_ok hrun
  obtain ⟨m₁, hhash, -, hrest⟩ := Run.instructions_cons_eq_ok hinstructions
  obtain ⟨m₂, hpush, hsize, -⟩ := Run.instructions_cons_eq_ok hrest
  obtain ⟨s, below, hmain, hhashed, hbranches⟩ := hash160_of_step rfl hhash
  have hexecuting : m₁.branches.isExecuting = true := by
    rw [hbranches]
    rfl
  have hcode : (Instruction.push h.bytes).code ≤ 0x60 :=
    UInt8.le_trans (Opcode.forPush_le _) (by decide)
  obtain ⟨-, -, journal, heq⟩ := Run.pushes_step hcode hexecuting hpush
  -- the hash and the one it is compared with lie on what was below
  have hpushed : m₂.main = (Instruction.push h.bytes).pushValue :: (hash160 s).bytes :: below := by
    rw [heq, ← hhashed]
  rw [hpushed] at hsize
  exact ⟨s, below, hmain, Nat.le_trans (Nat.le_add_right _ _) hsize⟩

/-- **What the lock takes and leaves.** -/
theorem leavesOn_lock_iff (hlimits : r.limits = .consensus) :
    r.leavesOn left (Script.payToScriptHash h) = some locked ↔
      ∃ s below, left = s :: below ∧ below.length ≤ 998 ∧
        locked = Number.ofTruth (h.bytes == (hash160 s).bytes) :: below := by
  have hleaves : ∀ {stack : Stack}, r.leavesOn left (Script.payToScriptHash h) = some stack ↔
      ∃ after, Run.script r (lockInstructions h) (.startOn left) = .ok () after ∧
        after.main = stack := by
    intro stack
    have hscan : (Script.scan (Script.payToScriptHash h)).1 = lockInstructions h := by
      rw [scan_lock]
    rw [← hscan]
    exact Run.leavesOn_eq_some_iff (m := .startOn left) rfl
  constructor
  · intro hlocked
    obtain ⟨after, hrun, rfl⟩ := hleaves.mp hlocked
    obtain ⟨s, below, hmain, hroom⟩ := exists_top_of_lock hrun
    have hdepth : below.length ≤ 998 := by
      rw [hlimits] at hroom
      exact Nat.le_of_add_le_add_right hroom
    obtain ⟨after', hrun', hmain'⟩ := script_lock hlimits hmain rfl hdepth
    rw [hrun'] at hrun
    cases hrun
    exact ⟨s, below, hmain, hdepth, hmain'⟩
  · rintro ⟨s, below, rfl, hdepth, rfl⟩
    exact hleaves.mpr (script_lock hlimits rfl rfl hdepth)

/-- The lock passes on stacks with a script of the hash on top. -/
theorem passes_lock_iff (hlimits : r.limits = .consensus) :
    r.Passes left (Script.payToScriptHash h) locked ↔
      ∃ s below, left = s :: below ∧ below.length ≤ 998 ∧ hash160 s = h ∧ locked = [1] :: below := by
  constructor
  · intro hpasses
    obtain ⟨s, below, hleft, hdepth, hlocked⟩ := (leavesOn_lock_iff hlimits).mp hpasses.leaves
    obtain ⟨top, rest, htop, htrue⟩ := hpasses.top
    rw [hlocked] at htop
    cases htop
    cases hequal : h.bytes == (hash160 s).bytes with
    | true =>
      rw [hequal] at hlocked
      exact ⟨s, below, hleft, hdepth, (Block.ext (beq_iff_eq.mp hequal)).symm, hlocked⟩
    | false =>
      rw [hequal] at htrue
      cases htrue
  · rintro ⟨s, below, rfl, hdepth, rfl, rfl⟩
    refine ⟨?_, ?_, ?_, [1], below, rfl, rfl⟩
    · rw [length_lock, hlimits]
      decide
    · rw [scan_lock]
    · exact (leavesOn_lock_iff hlimits).mpr ⟨s, below, rfl, hdepth, by rw [beq_self_eq_true]; rfl⟩

/-! ## Spends -/

/-- The script that was pushed last is not too long. -/
theorem length_le_of_prepares {unlocking locking s : Script} {below : Stack}
    (hlimits : r.limits = .consensus) (hnamed : Run.byScriptHash r locking = true)
    (h : r.Prepares unlocking locking (s :: below)) : s.length ≤ r.limits.maxScriptSize := by
  obtain ⟨opened, hopened, hmain, -⟩ := Run.script_of_prepares (m := .start) h ⟨.empty, rfl⟩
  have hs : s ∈ opened.main := by
    rw [hmain]
    exact List.mem_cons_self
  rcases Run.length_le_of_pushes (h.pushOnly (.inr hnamed)) hopened hs with hbelow | hle
  · cases hbelow
  · rw [hlimits] at hle ⊢
    exact Nat.le_trans hle (by decide)

theorem byScriptHash_lock (hflag : r.flags.has .payToScriptHash = true) (h : Hash160) :
    Run.byScriptHash r (Script.payToScriptHash h) = true := by
  rw [Run.byScriptHash, hflag, isPayToScriptHash_lock, Bool.and_self]

/-- The stacks of a successful spend of the lock: what the unlocking script leaves has a script of
the hash on top, and that script passes on what is below. -/
theorem stackPath_lock_iff {unlocking : Script} (hlimits : r.limits = .consensus)
    (hflag : r.flags.has .payToScriptHash = true) :
    (∃ left locked last, r.StackPath unlocking (Script.payToScriptHash h) left locked last) ↔
      ∃ s below last, r.Prepares unlocking (Script.payToScriptHash h) (s :: below) ∧
        below.length ≤ 998 ∧ hash160 s = h ∧ r.Passes below s last ∧
        (r.flags.has .cleanStack = true → last.length = 1) := by
  have hnamed := byScriptHash_lock hflag h
  constructor
  · rintro ⟨left, locked, last, hpath⟩
    obtain ⟨s, below, rfl, hdepth, hhash, -⟩ := (passes_lock_iff hlimits).mp hpath.locks
    obtain ⟨s', below', hleft, hpasses⟩ := hpath.redeems hnamed
    cases hleft
    exact ⟨s, below, last, hpath.prepares, hdepth, hhash, hpasses, hpath.clean⟩
  · rintro ⟨s, below, last, hprepares, hdepth, hhash, hpasses, hclean⟩
    refine ⟨s :: below, [1] :: below, last, hprepares,
      (passes_lock_iff hlimits).mpr ⟨s, below, rfl, hdepth, hhash, rfl⟩,
      fun _ => ⟨s, below, rfl, hpasses⟩, fun hfalse => ?_, hclean⟩
    rw [hnamed] at hfalse
    cases hfalse

/-- **A spend of a lock by the hash of a script is the run of that script.**  Apart from the depth
of the stack nothing is asked for the sake of the lock, and nothing that it does is seen by the
script: that starts on what the unlocking script left below it. -/
theorem execute_lock_ok_iff {r e : Rules} (he : r.effective = .ok e)
    (hlimits : r.limits = .consensus) (hflag : r.flags.has .payToScriptHash = true) (h : Hash160)
    (unlocking : Script) :
    (execute r unlocking (Script.payToScriptHash h)).verdict = .ok () ↔
      unlocking.length ≤ 10000 ∧ (Script.scan unlocking).2 = [] ∧
      (∀ i ∈ (Script.scan unlocking).1, i.code ≤ 0x60) ∧
      ∃ s below, e.leaves unlocking = some (s :: below) ∧ below.length ≤ 998 ∧ hash160 s = h ∧
        (Script.scan s).2 = [] ∧
        ∃ top rest, e.leavesOn below s = some (top :: rest) ∧ Number.truth top = true ∧
          (r.flags.has .cleanStack = true → rest = []) := by
  have hlimits' : e.limits = .consensus := (Rules.limits_of_effective he).trans hlimits
  have hflag' : e.flags.has .payToScriptHash = true :=
    (Rules.has_eq_of_effective he (by decide)).trans hflag
  have hclean : e.flags.has .cleanStack = r.flags.has .cleanStack :=
    Rules.has_eq_of_effective he (by decide)
  have hscript : e.limits.maxScriptSize = 10000 := by rw [hlimits']; rfl
  have hnamed := byScriptHash_lock hflag' h
  have hne : Script.payToScriptHash h ≠ [] := List.cons_ne_nil _ _
  rw [execute_ok_iff_stackPath he hne, stackPath_lock_iff hlimits' hflag', hclean]
  constructor
  · rintro ⟨s, below, last, hprepares, hdepth, hhash, hpasses, hone⟩
    obtain ⟨top, rest, rfl, htop⟩ := hpasses.top
    have hpushes := List.all_eq_true.mp (hprepares.pushOnly (.inr hnamed))
    refine ⟨hscript ▸ hprepares.size, hprepares.parses, fun i hi => of_decide_eq_true (hpushes i hi),
      s, below, hprepares.leaves, hdepth, hhash, hpasses.parses, top, rest, hpasses.leaves, htop,
      fun hasked => ?_⟩
    have hlength := hone hasked
    simpa using hlength
  · rintro ⟨hsize, hparses, hcodes, s, below, hleaves, hdepth, hhash, hnamedParses, top, rest,
      hredeemed, htop, hempty⟩
    have hpushes : Run.isPushOnly (Script.scan unlocking).1 = true :=
      List.all_eq_true.mpr fun i hi => decide_eq_true (hcodes i hi)
    have hprepares : e.Prepares unlocking (Script.payToScriptHash h) (s :: below) :=
      ⟨hscript.symm ▸ hsize, hparses, fun _ => hpushes, hleaves⟩
    refine ⟨s, below, top :: rest, hprepares, hdepth, hhash,
      ⟨length_le_of_prepares hlimits' hnamed hprepares, hnamedParses, hredeemed, top, rest, rfl, htop⟩,
      fun hasked => ?_⟩
    rw [hempty hasked]
    rfl

/-- The script `2 EQUAL` is named.  The spend `2 <2 EQUAL>` is accepted, and with a `NOP` between
the two pushes it is not. -/
theorem accepted_two_equal :
    let r : Rules := ⟨.consensus, .ofList [.payToScriptHash, .cleanStack], .secp256k1, none, 0⟩
    let lock := Script.payToScriptHash (hash160 [0x52, 0x87])
    (execute r [0x52, 2, 0x52, 0x87] lock).verdict = .ok () ∧
      (execute r [0x52, 0x61, 2, 0x52, 0x87] lock).verdict ≠ .ok () := by
  intro r lock
  have he : r.effective = .ok { r with flags := Rules.effectiveFlags r.flags } :=
    Rules.effective_eq_ok_iff.mpr ⟨rfl, fun _ => by decide⟩
  constructor
  · refine (execute_lock_ok_iff he rfl (by decide) _ _).mpr ⟨by decide, by decide +kernel,
      by decide +kernel, [0x52, 0x87], [[2]], by decide +kernel, by decide, rfl, by decide +kernel,
      [1], [], by decide +kernel, rfl, fun _ => rfl⟩
  · intro hok
    obtain ⟨-, -, hcodes, -⟩ := (execute_lock_ok_iff he rfl (by decide) _ _).mp hok
    exact absurd (hcodes ⟨0x61, none⟩ (by decide +kernel)) (by decide)

end PayToScriptHash

end CoinScript
