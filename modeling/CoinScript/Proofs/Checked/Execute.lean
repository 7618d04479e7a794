import CoinScript.Proofs.Checked.Dispatch
import CoinScript.Proofs.Checked.Script
import CoinScript.Proofs.Machine.Stepping
import CoinScript.Proofs.Machine.Verdict

/-!
# Spends on words and arrays

The scripts of a spend, as a processor runs them: each is an array of instructions through which an
index moves, and the number of elements on both stacks is added up after every instruction.  What the
unlocking script leaves is kept in an array of its own where the lock names the hash of a script.

`tracks_spend` compares the whole run with the program.  No sum in it can leave the words: an
instruction takes 32 bytes of memory and adds at most four to what `Held` counts, so what the three
scripts of a spend can add up to stays far below the number of bytes that there are.

`execute` is the verdict.  It is the verdict of the program, or memory is exhausted, and under `Modest`
limits memory is not (`execute_spared`).
-/

namespace CoinScript.Checked

namespace Run

open CoinScript.Checked.Stack (Stored InMemory Room)

variable {ample : Prop} {n limit fuel offset : Nat} {r : Rules} {is rest : List Instruction}
  {s : Script} {left : Stack}

/-! ## The computations -/

/-- Follows the instructions of a script from an index on. -/
def instructions (r : Rules) (script : List Instruction) : (fuel offset : Nat) → Steps Unit
  | 0, offset => if script.length ≤ offset then return () else checked (crash .endless)
  | fuel + 1, offset =>
    if script.length ≤ offset then return ()
    else do
      step r script offset (← checked (index script offset))
      let next ← checked (add offset 1)
      let m ← get
      let size ← checked (add m.main.length m.alt.length)
      require (decide (size ≤ r.limits.maxStackSize)) (.tooManyElements size r.limits.maxStackSize)
      instructions r script fuel next

/-- Runs a script. -/
def script (r : Rules) (is : List Instruction) : Steps Unit := do
  modify fun m => { m with branches := .none, codeStart := 0, operations := 0 }
  instructions r is is.length 0
  require (decide ((← get).branches.frames = [])) .neverClosed
  modify fun m => { m with alt := [] }

/-- The top of the stack is true. -/
def checkTop : Steps Unit := do
  require (decide ((← get).main ≠ [])) .nothingLeft
  require (← onMain (Stack.peekTruth 0)) .falseResult

/-- A script is not too long. -/
def checkSize (r : Rules) (role : ScriptRole) (s : Script) : Steps Unit :=
  require (decide (s.length ≤ r.limits.maxScriptSize))
    (.scriptTooLong role s.length r.limits.maxScriptSize)

/-- Runs the script that is the top of the stack which the unlocking script left. -/
def redeem (r : Rules) (left : Stack) : Steps Unit := do
  match left with
  | [] => throw (.refused .noRedeemScript)
  | s :: below =>
    checkSize r .redeem s
    lift (CoinScript.Run.record (.redeeming s.length r.input))
    let is ← checked (parse s)
    modify fun m => { m with main := below }
    script r is
    checkTop

/-- One element is left, if a clean stack is asked for. -/
def checkClean (r : Rules) : Steps Unit := do
  let depth := (← get).main.length
  if r.flags.has .cleanStack && depth != 1 then
    throw (.refused (.notClean (← checked (sub depth 1))))

/-- Runs the locking script on what the unlocking script left, and what may follow it. -/
def lock (r : Rules) (byScriptHash : Bool) (is : List Instruction) (left : Stack) : Steps Unit := do
  script r is
  checkTop
  if byScriptHash then
    redeem r left
  checkClean r

/-- Runs the scripts of a spend. -/
def spend (r : Rules) (unlocking locking : Script) : Steps Unit := do
  checkSize r .unlocking unlocking
  checkSize r .locking locking
  require (decide (¬(unlocking = [] ∧ locking = []))) .falseResult
  let first ← checked (parse unlocking)
  let second ← checked (parse locking)
  require (!r.flags.has .pushOnly || CoinScript.Run.isPushOnly first) (.notPushOnly false)
  let byScriptHash := r.flags.has .payToScriptHash && Script.isPayToScriptHash locking
  require (!byScriptHash || CoinScript.Run.isPushOnly first) (.notPushOnly true)
  script r first
  let left := (← get).main
  if byScriptHash then
    checked (allocate left.length 24)
  lock r byScriptHash second left

/-! ## One script -/

/-- A run through the rest of a script, by induction on the rounds that are left.  Every instruction
raises the bound of `Held` by four. -/
theorem tracks_instructions (hr : ample → Modest r.limits) (h : At is offset rest)
    (hfuel : rest.length ≤ fuel) (hn : n + 4 * rest.length ≤ limit) (hlimit : limit ≤ addressSpace)
    (hroom : Room ample limit) (hword : is.length < wordSize) :
    Tracks ample (Held n) (Held limit) Any (instructions r is fuel offset)
      (CoinScript.Run.instructions r is offset rest) := by
  have hspace : addressSpace < wordSize := by decide
  induction fuel generalizing offset rest n with
  | zero =>
    obtain rfl : rest = [] := List.length_eq_zero_iff.mp (Nat.le_zero.mp hfuel)
    rw [instructions, if_pos (Nat.le_of_eq (h.eq_length_iff.mpr rfl).symm)]
    exact tracks_weaken (tracks_pure trivial) hn
  | succ fuel ih =>
    rw [instructions]
    match rest, h with
    | [], h =>
      rw [if_pos (Nat.le_of_eq (h.eq_length_iff.mpr rfl).symm)]
      exact tracks_weaken (tracks_pure trivial) hn
    | i :: rest, h =>
      have hlength := h.add_length
      rw [List.length_cons] at hlength hfuel hn
      rw [if_neg (by omega)]
      have hstep : Tracks ample (Held n) (Held (n + 4)) Any (step r is offset i)
          (CoinScript.Run.step r is offset i) :=
        tracks_step hr (by omega) (hroom.mono (by omega)) (by omega) i
      refine .of_ok h.index_head (hstep.bind fun _ _ => ?_)
      refine .of_ok (add_of_lt (by omega)) (.get_bind fun m hm => ?_)
      have hcount := hm.count
      refine Tracks.of_ok (I := Held (n + 4)) (add_of_lt (by omega)) ?_ m hm
      exact tracks_require_bind fun _ => ih h.tail (by omega) (by omega)

/-- A script, by its instructions. -/
theorem tracks_script (hr : ample → Modest r.limits) (hn : n + 4 * is.length ≤ addressSpace)
    (hroom : Room ample (n + 4 * is.length)) :
    Tracks ample (Held n) (Held (n + 4 * is.length)) Any (script r is)
      (CoinScript.Run.script r is) := by
  have hspace : addressSpace < wordSize := by decide
  have hbegin : Tracks (ε := Fault) ample (Held n) (Held n) Any
      (modify fun m => { m with branches := .none, codeStart := 0, operations := 0 })
      (modify fun m => { m with branches := .none, codeStart := 0, operations := 0 }) :=
    tracks_modify fun m hm => by
      have hcount := hm.count
      exact ⟨hm.main, hm.alt, ⟨rfl, Nat.zero_le _⟩, by
        dsimp only [Branches.none, List.length_nil]
        omega⟩
  have hend {k : Nat} : Tracks (ε := Fault) ample (Held k) (Held k) Any
      (modify fun m => { m with alt := [] }) (modify fun m => { m with alt := [] }) :=
    tracks_modify fun m hm => by
      have hcount := hm.count
      exact ⟨hm.main, .nil, hm.branches, by
        dsimp only [List.length_nil]
        omega⟩
  refine hbegin.bind fun _ _ => ?_
  have hrun := tracks_instructions hr (At.zero is) (Nat.le_refl _) (Nat.le_refl _) hn hroom (by omega)
  refine hrun.bind fun _ _ => .get_bind fun m hm => ?_
  exact (tracks_require _ _).bind (fun _ _ => hend) m hm

/-- After the check there is an element left. -/
theorem tracks_checkTop :
    Tracks ample (Held n) (fun m => Held n m ∧ m.main ≠ []) Any checkTop
      CoinScript.Run.checkTop := by
  have hheld : Tracks ample (Held n) (Held n) Any checkTop CoinScript.Run.checkTop := by
    refine .get_bind fun m hm => ?_
    refine Tracks.bind (tracks_require _ _) (fun _ _ => ?_) m hm
    refine (tracks_onMain_same fun _ => Stack.tracks_peekTruth 0).bind fun v _ => ?_
    exact tracks_check v _
  refine hheld.and fun m _ m' _ h => ?_
  obtain ⟨⟨top, below, hmain, -⟩, rfl⟩ := CoinScript.Run.checkTop_eq_ok h
  rw [hmain]
  exact List.cons_ne_nil _ _

theorem tracks_checkSize {I : Machine → Prop} (role : ScriptRole) (s : Script) :
    Tracks ample I I (fun _ => s.length ≤ r.limits.maxScriptSize) (checkSize r role s)
      (CoinScript.Run.checkSize r role s) :=
  (tracks_require _ _).mono (fun _ h => h) fun _ h => of_decide_eq_true h

/-- A script in memory has no more instructions than memory has room for. -/
theorem tracks_parse {I : Machine → Prop} (hr : ample → Modest r.limits) (h : InMemory s)
    (hsize : s.length ≤ r.limits.maxScriptSize) :
    Tracks ample I I (Parsed s.length) (checked (parse s)) (CoinScript.Run.parse s) := by
  rw [run_parse_eq]
  refine tracks_ofExcept (parse_spared (Nat.lt_of_le_of_lt h (by decide)) fun hyes => ?_)
  have hscript := (hr hyes).script
  omega

/-! ## The scripts of a spend -/

/-- What a spend can add up to in three scripts of so many bytes. -/
theorem room_of_modest (hr : ample → Modest r.limits) (h : n ≤ 16 * r.limits.maxScriptSize) :
    Room ample n := fun hyes => by
  have hscript := (hr hyes).script
  omega

/-- The run of the redeem script.  Its stack is the one that was kept, and its count starts afresh. -/
theorem tracks_redeem (hr : ample → Modest r.limits) (hleft : Stored left)
    (hn : n + left.length + addressSpace / 8 ≤ addressSpace)
    (hsize : n + left.length ≤ 12 * r.limits.maxScriptSize) :
    Tracks ample (Held n) (fun m => Held addressSpace m ∧ m.main ≠ []) Any (redeem r left)
      (CoinScript.Run.redeem r left) := by
  match left with
  | [] => exact tracks_throw _
  | s :: below =>
    have hs : InMemory s := hleft.within s List.mem_cons_self
    have hbelow : Stored below := hleft.of_sublist (List.sublist_cons_self s below)
    rw [List.length_cons] at hn hsize
    refine (tracks_checkSize .redeem s).bind fun _ hlength => (tracks_record _).bind fun _ _ => ?_
    refine (tracks_parse hr hs hlength).bind fun is his => ?_
    obtain ⟨hparsed, hle⟩ := his
    have hmain : Tracks (ε := Fault) ample (Held n) (Held (n + below.length)) Any
        (modify fun m => { m with main := below }) (modify fun m => { m with main := below }) :=
      tracks_modify fun m hm => by
        have hcount := hm.count
        exact ⟨hbelow, hm.alt, hm.branches, by dsimp only; omega⟩
    have hrun : Tracks ample (Held (n + below.length)) (Held addressSpace) Any (script r is)
        (CoinScript.Run.script r is) :=
      tracks_weaken (tracks_script hr (by omega) (room_of_modest hr (by omega))) (by omega)
    exact hmain.bind fun _ _ => hrun.bind fun _ _ => tracks_checkTop

theorem tracks_checkClean :
    Tracks ample (fun m => Held n m ∧ m.main ≠ []) (Held n) Any (checkClean r) (do
      let depth := (← get).main.length
      CoinScript.Run.require (!r.flags.has .cleanStack || depth == 1) (.notClean (depth - 1))) := by
  refine .get_bind fun m hm => ?_
  have hsub : (sub m.main.length 1 : Checked Fault Nat) = .ok (m.main.length - 1) :=
    sub_of_le (List.length_pos_iff.mpr hm.2)
  have hcondition : (!r.flags.has .cleanStack || m.main.length == 1) =
      !(r.flags.has .cleanStack && m.main.length != 1) := by
    rw [bne, Bool.not_and, Bool.not_not]
  rw [hcondition, hsub]
  cases r.flags.has .cleanStack && m.main.length != 1 with
  | true => exact .refused _ m
  | false => exact .ok trivial hm.1

/-- The part of a spend after the unlocking script. -/
theorem tracks_lock (hr : ample → Modest r.limits) (byScriptHash : Bool) (hleft : Stored left)
    (hn : n + left.length + addressSpace / 4 ≤ addressSpace)
    (hsize : n + left.length ≤ 8 * r.limits.maxScriptSize) (hroom : is.length * 32 ≤ addressSpace)
    (hle : is.length ≤ r.limits.maxScriptSize) :
    Tracks ample (Held n) (Held addressSpace) Any (lock r byScriptHash is left) (do
      CoinScript.Run.script r is
      CoinScript.Run.checkTop
      if byScriptHash then
        CoinScript.Run.redeem r left
      let depth := (← get).main.length
      CoinScript.Run.require (!r.flags.has .cleanStack || depth == 1) (.notClean (depth - 1))) := by
  have hrun : Tracks ample (Held n) (Held (n + 4 * is.length)) Any (script r is)
      (CoinScript.Run.script r is) := tracks_script hr (by omega) (room_of_modest hr (by omega))
  refine hrun.bind fun _ _ => tracks_checkTop.bind fun _ _ => ?_
  refine tracks_when (fun _ => ?_) (fun m hm => ⟨hm.1.mono (by omega), hm.2⟩) tracks_checkClean
  exact (tracks_redeem hr hleft (by omega) (by omega)).of_imp fun m hm => hm.1

/-- **A whole spend does what the program does.** -/
theorem tracks_spend (hr : ample → Modest r.limits) {unlocking locking : Script}
    (hunlocking : InMemory unlocking) (hlocking : InMemory locking) :
    Tracks ample (Held 0) (Held addressSpace) Any (spend r unlocking locking)
      (CoinScript.Run.spend r unlocking locking) := by
  refine (tracks_checkSize .unlocking unlocking).bind fun _ hfirstSize => ?_
  refine (tracks_checkSize .locking locking).bind fun _ hsecondSize => tracks_require_bind fun _ => ?_
  refine (tracks_parse hr hunlocking hfirstSize).bind fun first hfirst => ?_
  refine (tracks_parse hr hlocking hsecondSize).bind fun second hsecond => ?_
  obtain ⟨hfirstRoom, hfirstLe⟩ := hfirst
  obtain ⟨hsecondRoom, hsecondLe⟩ := hsecond
  refine tracks_require_bind fun _ => tracks_require_bind fun _ => ?_
  refine (tracks_script hr (by omega) (room_of_modest hr (by omega))).bind fun _ _ => ?_
  refine .get_bind fun m hm => ?_
  have hcount := hm.count
  exact Tracks.of_allocate_when hm.main.room
    (tracks_lock hr _ hm.main (by omega) (by omega) hsecondRoom (by omega)) m hm

theorem held_begun (r : Rules) (unlocking locking : Script) :
    Held 0 (Machine.begun r unlocking locking) :=
  ⟨.nil, .nil, ⟨rfl, Nat.zero_le _⟩, Nat.le_refl 0⟩

end Run

/-! ## Verdicts -/

/-- The verdict that goes with the result of a run. -/
def verdictOf : EStateM.Result (Stop Fault) Machine Unit → Checked Fault Unit
  | .ok () _ => .ok ()
  | .error stop _ => .error stop

/-- The verdict on a spend. -/
def execute (r : Rules) (unlocking locking : Script) : Checked Fault Unit := do
  let e ← ofExcept r.effective
  verdictOf (Run.spend e unlocking locking (Machine.begun r unlocking locking))

theorem Same.verdictOf {ample : Prop} {J : Machine → Prop} {Q : Unit → Prop}
    {x : EStateM.Result (Stop Fault) Machine Unit} {y : EStateM.Result Fault Machine Unit}
    (h : Same ample J Q x y) : Spared ample Q (verdictOf x) (CoinScript.verdictOf y) := by
  cases h with
  | ok ha _ => exact .ok ha
  | refused cause => exact .refused cause
  | exhausted h => exact .exhausted h _

/-- The verdict is the one of the program, as far as memory reaches. -/
theorem execute_spared (r : Rules) {unlocking locking : Script}
    (hunlocking : Stack.InMemory unlocking) (hlocking : Stack.InMemory locking) :
    Spared (Run.Modest r.limits) Any (execute r unlocking locking)
      (CoinScript.execute r unlocking locking).verdict := by
  unfold execute
  cases he : r.effective with
  | error fault =>
    rw [verdict_of_effective_error he]
    exact .refused fault
  | ok e =>
    rw [verdict_of_effective he]
    have hlimits : Run.Modest r.limits → Run.Modest e.limits :=
      fun hmodest => (Rules.limits_of_effective he).symm ▸ hmodest
    exact (Run.tracks_spend hlimits hunlocking hlocking _
      (Run.held_begun r unlocking locking)).verdictOf

/-- **Verification does not crash.**  For every spend whose scripts are in memory, under all rules and
for every transaction, the run on words and arrays uses no operation outside its domain, and unless it
asks for an array that memory has no room for it has the verdict of the program.  Under modest limits it
always has.

Under other limits a script can ask for room for more keys than addresses can tell apart, before it is
seen that the keys are not there.  The computation ends at that request, and its outcome is `exhausted`
as well. -/
theorem execute_never_crashes (r : Rules) {unlocking locking : Script}
    (hunlocking : unlocking.length ≤ addressSpace) (hlocking : locking.length ≤ addressSpace) :
    (∀ c : Crash, execute r unlocking locking ≠ crash c) ∧
      (execute r unlocking locking = .error .exhausted ∨
        execute r unlocking locking = ofExcept (CoinScript.execute r unlocking locking).verdict) ∧
      (Run.Modest r.limits →
        execute r unlocking locking = ofExcept (CoinScript.execute r unlocking locking).verdict) := by
  have hspared := execute_spared r hunlocking hlocking
  have houtcome := hspared.exhausted_or_eq
  exact ⟨hspared.ne_crash, houtcome.imp_left And.right,
    fun hmodest => houtcome.resolve_left fun h => h.1 hmodest⟩

namespace TwoKeys

/-- A dummy, and a signature that cannot be read. -/
def unlocking : Script := [0x00, 0x01, 0x30]

/-- The check of one signature against two keys, a division in the arm that is taken if it fails, and
another arm that gives up. -/
def locking : Script :=
  [0x51, 0x51, 0x52, 0x52, 0xae, 0x64, 0x56, 0x52, 0x96, 0x53, 0x87, 0x67, 0x6a, 0x68]

/-- Rules that allow the division, and a transaction. -/
def rules : Rules :=
  ⟨.consensus, .ofList [.extendedA], .secp256k1, some ⟨fun _ _ _ _ => .ok (.zero 32),
    fun _ _ _ _ => [], 0, 1, fun _ => none⟩, 0⟩

/-- Both keys are tried, and the run ends with the verdict of the program. -/
theorem execute_never_crashes_twoKeys :
    unlocking.length ≤ addressSpace ∧ locking.length ≤ addressSpace ∧ Run.Modest rules.limits ∧
      execute rules unlocking locking = .ok () ∧
      (CoinScript.execute rules unlocking locking).verdict = .ok () := by
  have hunlocking : unlocking.length ≤ addressSpace := by decide
  have hlocking : locking.length ≤ addressSpace := by decide
  have hrun : execute rules unlocking locking = .ok () := by decide +kernel
  have hverdict := (execute_never_crashes rules hunlocking hlocking).2.2 Run.modest_profiles.1
  rw [hrun] at hverdict
  refine ⟨hunlocking, hlocking, Run.modest_profiles.1, hrun, ?_⟩
  cases hmodel : (CoinScript.execute rules unlocking locking).verdict with
  | ok => rfl
  | error cause =>
    rw [hmodel] at hverdict
    cases hverdict

end TwoKeys

end CoinScript.Checked
