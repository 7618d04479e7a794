import CoinScript.Proofs.Machine.Stepping
import CoinScript.Proofs.Machine.Trials
import CoinScript.Proofs.Machine.Verdict

/-!
# The places of a run

What a run does on its way is lost in its verdict.  A *place* of a run is an instruction together
with the machine that it finds, and to say something of every place one needs to know which there
are:

* `Begins`: the scripts of a spend, each with the machine on which its run begins;
* `Reaches`: the instructions that the run of one script comes to, each with the machine it finds;
* `Executes`: those of them that are executed.

The trials of a run are those that an executed instruction comes to (`TrialAt`).

`execute_cases` says that nothing is missing from these notions: every digest that was asked for in
a run, whatever its verdict, was asked for by a trial at one of its places.  Its proof goes up from
the operations to the spend along a law, `Run.asking`, which allows every change but questions that
are not in a given set; along the way the notions above supply the set.  A law knows faults as well
as changes, so the same theorem says which faults a run can stop with.
-/

namespace CoinScript

/-- The machine at the first instruction of a script. -/
def Machine.afresh (m : Machine) : Machine :=
  { m with branches := .none, codeStart := 0, operations := 0 }

namespace Run

/-! ## Places -/

/-- The run of a script that begins on `first` comes to the instruction with the given number, on
the given machine. -/
inductive Reaches (r : Rules) (script : List Instruction) (first : Machine) :
    (offset : Nat) → Machine → Prop
  | start : Reaches r script first 0 first.afresh
  | next {offset : Nat} {m m' : Machine} {i : Instruction}
      (h : Reaches r script first offset m) (hi : script[offset]? = some i)
      (hstep : step r script offset i m = .ok () m')
      (hsize : m'.main.length + m'.alt.length ≤ r.limits.maxStackSize) :
      Reaches r script first (offset + 1) m'

/-- The run of a script executes the instruction with the given number, which finds the given
machine. -/
structure Executes (r : Rules) (script : List Instruction) (first : Machine) (offset : Nat)
    (i : Instruction) (m : Machine) : Prop where
  reaches : Reaches r script first offset m
  instruction : script[offset]? = some i
  executing : m.branches.isExecuting = true

/-- An instruction is reached once, if at all. -/
theorem Reaches.unique {r : Rules} {script : List Instruction} {first m m' : Machine} {offset : Nat}
    (h : Reaches r script first offset m) (h' : Reaches r script first offset m') : m' = m := by
  induction h generalizing m' with
  | start =>
    cases h'
    rfl
  | next h hi hstep _ ih =>
    cases h' with
    | next h' hi' hstep' _ =>
      obtain rfl := ih h'
      rw [hi] at hi'
      cases hi'
      rw [hstep] at hstep'
      cases hstep'
      rfl

/-- The scripts of a spend, each with the machine on which its run begins.  Every one of them reads
as instructions to its end. -/
inductive Begins (r : Rules) (unlocking locking : Script) (m : Machine) : Script → Machine → Prop
  | unlocking (hparses : (Script.scan unlocking).2 = []) :
      Begins r unlocking locking m unlocking m
  | locking {opened : Machine} (hparses : (Script.scan locking).2 = [])
      (hunlocks : Run.script r (Script.scan unlocking).1 m = .ok () opened) :
      Begins r unlocking locking m locking opened
  | redeem {opened locked : Machine} {s : Bytes} {below : Stack}
      (hnamed : byScriptHash r locking = true)
      (hunlocks : Run.script r (Script.scan unlocking).1 m = .ok () opened)
      (hlocks : Run.script r (Script.scan locking).1 opened = .ok () locked)
      (hleft : opened.main = s :: below) (hparses : (Script.scan s).2 = []) :
      Begins r unlocking locking m s
        { locked with
          main := below
          journal := { locked.journal with
            events := .redeeming s.length r.input :: locked.journal.events } }

theorem Begins.parses {r : Rules} {unlocking locking s : Script} {m first : Machine}
    (h : Begins r unlocking locking m s first) : (Script.scan s).2 = [] := by
  cases h with
  | unlocking hparses => exact hparses
  | locking hparses => exact hparses
  | redeem _ _ _ _ hparses => exact hparses

/-- A spend that starts on `m` comes to the trial, at the instruction with the given number of the
script `s`, whose run begins on `first`. -/
structure TrialAt (r : Rules) (unlocking locking : Script) (m : Machine) (s : Script)
    (first : Machine) (offset : Nat) (i : Instruction) (found : Machine) (t : Trial) : Prop where
  begins : Begins r unlocking locking m s first
  executes : Executes r (Script.scan s).1 first offset i found
  tried : Tried r (Script.scan s).1 (found.entering offset i) i.operation t

/-! ## One instruction -/

section

variable {r : Rules} {L : Law} {m : Machine}

theorem operation_ne_crypto {i : Instruction} (h : i.isConditional = true) (x : CryptoOp) :
    i.operation ≠ .crypto x := by
  unfold Instruction.isConditional at h
  intro hop
  rw [hop] at h
  cases h

theorem keeps_checkGate (hL : L.Inherited r) (op : Opcode) (x : Operation) :
    Keeps L (checkGate r op x) m := by
  unfold checkGate
  cases x.gate with
  | always => exact keeps_pure hL ()
  | extendedA => exact keeps_require hL _ trivial
  | extendedB => exact keeps_require hL _ trivial
  | never => exact keeps_throw hL (by split <;> trivial)

theorem keeps_checkExecuted (hL : L.Inherited r) (i : Instruction) :
    Keeps L (checkExecuted r i) m :=
  keeps_require_bind hL trivial fun _ =>
    Keeps.bind hL (keeps_of_ok rfl (hL.refl m)) fun _ _ _ => keeps_require hL _ trivial

/-- What an instruction may do while it is admitted. -/
theorem keeps_inspect (hL : L.Frames r) (i : Instruction) : Keeps L (inspect r i) m := by
  have hi := hL.toInherited
  refine keeps_require_bind hi trivial fun _ => ?_
  refine (keeps_checkGate hi i.code i.operation).bind hi fun _ m₁ hgate => ?_
  obtain ⟨-, rfl⟩ := checkGate_eq_ok hgate
  exact keeps_ite (fun _ => keeps_countOperations hL 1) fun _ => keeps_pure hi ()

/-- What an instruction may do once it has been admitted. -/
theorem keeps_enter (hL : L.Inherited r) {script : List Instruction} {offset : Nat}
    {i : Instruction}
    (hevents : ∀ m' events, L.moves m' { m' with journal := { m'.journal with events } })
    (hperform : (m.branches.isExecuting || i.isConditional) = true →
      Keeps L (perform r script offset m.branches.isExecuting i) (m.noting offset i)) :
    Keeps L (enter r script offset i) m := by
  show Keeps L (if m.branches.isExecuting || i.isConditional then _ else _ : Run Unit) m
  refine keeps_ite (fun hany => ?_) fun _ => keeps_pure hL ()
  refine Keeps.bind hL (keeps_of_ok rfl (hL.refl m)) fun _ _ hget => ?_
  cases hget
  refine Keeps.bind hL (keeps_of_ok rfl (hevents m _)) fun _ m₁ hrecord => ?_
  obtain rfl : m.noting offset i = m₁ := by
    cases hrecord
    rfl
  have hperform := hperform hany
  cases hexecuting : m.branches.isExecuting with
  | false =>
    rw [hexecuting] at hperform
    exact hperform
  | true =>
    rw [hexecuting] at hperform
    refine (keeps_checkExecuted hL i).bind hL fun _ m₂ hcheck => ?_
    obtain ⟨-, -, rfl⟩ := checkExecuted_eq_ok hcheck
    exact hperform

/-- **What one instruction may do.**  It keeps every law that allows its operation, where it is
executed, and the events. -/
theorem keeps_step (hL : L.Frames r) {script : List Instruction} {offset : Nat} {i : Instruction}
    (hevents : ∀ m' events, L.moves m' { m' with journal := { m'.journal with events } })
    (hsteers : i.isConditional = true → L.Steers)
    (hseparator : m.branches.isExecuting = true → i.operation = .crypto .codeSeparator →
      L.moves (m.entering offset i) { m.entering offset i with codeStart := offset + 1 })
    (hask : m.branches.isExecuting = true →
      ∀ t, Tried r script (m.entering offset i) i.operation t → L.Permits r t) :
    Keeps L (step r script offset i) m := by
  have hi := hL.toInherited
  have hperform : (m.branches.isExecuting || i.isConditional) = true →
      Keeps L (perform r script offset m.branches.isExecuting i) (m.entering offset i) := by
    intro hany
    cases hexecuting : m.branches.isExecuting with
    | true =>
      exact keeps_perform hL script offset true i hsteers (hseparator hexecuting)
        (hask hexecuting)
    | false =>
      -- conditionals neither move the separator nor come to a trial
      have hconditional : i.isConditional = true := by rwa [hexecuting] at hany
      refine keeps_perform hL script offset false i hsteers (fun hop => ?_)
        fun t htried => ?_
      · exact absurd hop (operation_ne_crypto hconditional _)
      · cases hop : i.operation with
        | crypto x => exact absurd hop (operation_ne_crypto hconditional x)
        | _ =>
          rw [hop] at htried
          cases htried
  rw [step_eq]
  refine (keeps_inspect hL i).bind hi fun _ m₁ hinspect => ?_
  obtain ⟨-, rfl⟩ := inspect_eq_ok hinspect
  exact keeps_enter hi hevents hperform

/-! ## The law of the questions -/

variable {P : DigestRequest → Prop}

/-- The questions that have been added to the journal are in the set. -/
def Questions (P : DigestRequest → Prop) (m m' : Machine) : Prop :=
  ∃ new, m'.journal.requests = new ++ m.journal.requests ∧ ∀ q ∈ new, P q

theorem questions_of_eq {m m' : Machine} (h : m'.journal.requests = m.journal.requests) :
    Questions P m m' := ⟨[], h, fun _ hq => absurd hq List.not_mem_nil⟩

theorem Questions.trans {m m' m'' : Machine} (h : Questions P m m') (h' : Questions P m' m'') :
    Questions P m m'' := by
  obtain ⟨new, hnew, hP⟩ := h
  obtain ⟨new', hnew', hP'⟩ := h'
  refine ⟨new' ++ new, by rw [hnew', hnew, List.append_assoc], fun q hq => ?_⟩
  rcases List.mem_append.mp hq with hq | hq
  · exact hP' q hq
  · exact hP q hq

/-- Everything is allowed but questions that are not in the set, and faults that are not
possible. -/
def asking (r : Rules) (P : DigestRequest → Prop) : Law where
  moves := Questions P
  fails m fault m' := fault.Possible r ∧ Questions P m m'

theorem frames_asking (r : Rules) (P : DigestRequest → Prop) : (asking r P).Frames r where
  refl _ := questions_of_eq rfl
  trans := Questions.trans
  before h h' := ⟨h'.1, h.trans h'.2⟩
  stop _ _ h := ⟨h.possible, questions_of_eq rfl⟩
  main _ _ := questions_of_eq rfl
  alt _ _ := questions_of_eq rfl
  count _ _ _ := questions_of_eq rfl
  overcount _ _ _ := ⟨trivial, questions_of_eq rfl⟩

theorem steers_asking (r : Rules) (P : DigestRequest → Prop) : (asking r P).Steers where
  branches _ _ := questions_of_eq rfl
  refuses _ _ h := ⟨h.possible, questions_of_eq rfl⟩

theorem permits_asking {t : Trial} (h : ∀ q, t.Asks r q → P q) : (asking r P).Permits r t := by
  intro q hq events
  refine ⟨[q], rfl, fun q' hq' => ?_⟩
  obtain rfl := List.mem_singleton.mp hq'
  exact h _ hq

/-! ## Scripts -/

/-- The first of the instructions that are left, and what is left after it. -/
theorem getElem?_of_drop {script is : List Instruction} {offset : Nat} {i : Instruction}
    (hdrop : script.drop offset = i :: is) :
    script[offset]? = some i ∧ script.drop (offset + 1) = is := by
  constructor
  · rw [← List.head?_drop, hdrop]
    rfl
  · rw [← List.tail_drop, hdrop]
    rfl

/-- What is left of a script at an instruction. -/
theorem drop_eq_cons {script : List Instruction} {offset : Nat} {i : Instruction}
    (hi : script[offset]? = some i) : script.drop offset = i :: script.drop (offset + 1) := by
  obtain ⟨hlt, rfl⟩ := List.getElem?_eq_some_iff.mp hi
  exact List.drop_eq_getElem_cons hlt

/-- A run of some instructions of a script comes to the next one. -/
theorem reaches_of_part {script part rest : List Instruction} {first after : Machine}
    {offset : Nat} (hdrop : script.drop offset = part ++ rest)
    (hreaches : Reaches r script first offset m)
    (h : instructions r script offset part m = .ok () after) :
    Reaches r script first (offset + part.length) after := by
  induction part generalizing offset m with
  | nil =>
    cases h
    exact hreaches
  | cons i part ih =>
    obtain ⟨m', hstep, hsize, hrest⟩ := instructions_cons_eq_ok h
    obtain ⟨hget, htail⟩ := getElem?_of_drop hdrop
    have hend := ih htail (hreaches.next hget hstep hsize) hrest
    rwa [Nat.add_assoc, Nat.add_comm 1] at hend

/-- A run that ends has come to the end of the script. -/
theorem reaches_of_instructions {script is : List Instruction} {first after : Machine}
    {offset : Nat} (hdrop : script.drop offset = is) (hreaches : Reaches r script first offset m)
    (h : instructions r script offset is m = .ok () after) :
    Reaches r script first (offset + is.length) after :=
  reaches_of_part (hdrop.trans (List.append_nil is).symm) hreaches h

/-- From a place of a script on, only the trials at its places ask. -/
theorem keeps_instructions {script : List Instruction} {first : Machine}
    (hask : ∀ offset i found t, Executes r script first offset i found →
      Tried r script (found.entering offset i) i.operation t → ∀ q, t.Asks r q → P q)
    (is : List Instruction) {offset : Nat} (hdrop : script.drop offset = is)
    (hreaches : Reaches r script first offset m) :
    Keeps (asking r P) (instructions r script offset is) m := by
  have hL := frames_asking r P
  have hi := hL.toInherited
  induction is generalizing offset m with
  | nil => exact keeps_pure hi ()
  | cons i is ih =>
    obtain ⟨hget, hrest⟩ := getElem?_of_drop hdrop
    refine Keeps.bind hi (keeps_step hL (fun _ _ => questions_of_eq rfl)
      (fun _ => steers_asking r P) (fun _ _ => questions_of_eq rfl)
      fun hexecuting t htried => ?_) fun _ m' hstep => ?_
    · exact permits_asking (hask offset i m t ⟨hreaches, hget, hexecuting⟩ htried)
    · refine Keeps.bind hi (keeps_of_ok rfl (hi.refl m')) fun _ _ hstate => ?_
      cases hstate
      refine keeps_require_bind hi trivial fun hsize => ?_
      exact ih hrest (hreaches.next hget hstep (of_decide_eq_true hsize))

theorem keeps_script {is : List Instruction}
    (hask : ∀ offset i found t, Executes r is m offset i found →
      Tried r is (found.entering offset i) i.operation t → ∀ q, t.Asks r q → P q) :
    Keeps (asking r P) (Run.script r is) m := by
  have hi := (frames_asking r P).toInherited
  refine Keeps.bind hi (keeps_of_ok rfl (questions_of_eq rfl)) fun _ m₁ hreset => ?_
  obtain rfl : m.afresh = m₁ := by
    cases hreset
    rfl
  refine (keeps_instructions hask is rfl .start).bind hi fun _ m₂ _ => ?_
  refine Keeps.bind hi (keeps_of_ok rfl (hi.refl m₂)) fun _ _ hstate => ?_
  cases hstate
  exact keeps_require_bind_of_fails ((steers_asking r P).refuses m₂ ⟨rfl, nofun⟩) fun _ =>
    keeps_of_ok rfl (questions_of_eq rfl)

/-! ## Spends -/

theorem keeps_checkTop (hL : L.Frames r) : Keeps L checkTop m := by
  have hi := hL.toInherited
  refine Keeps.bind hi (keeps_of_ok rfl (hi.refl m)) fun _ _ hstate => ?_
  cases hstate
  refine keeps_require_bind hi trivial fun _ => ?_
  exact (keeps_onMain hL ((Stack.plain_peek 0).bind fun _ => Stack.plain_pure _)).bind hi
    fun _ _ _ => keeps_require hi _ trivial

theorem keeps_parse (hL : L.Inherited r) (s : Script) : Keeps L (parse s) m :=
  keeps_require_bind hL trivial fun _ => keeps_pure hL _

/-- The questions of the trials at the places of a spend. -/
def Asked (r : Rules) (unlocking locking : Script) (m : Machine) (q : DigestRequest) : Prop :=
  ∃ s first offset i found t, TrialAt r unlocking locking m s first offset i found t ∧ t.Asks r q

section

variable {unlocking locking : Script} {start : Machine}

/-- In the run of a script of a spend only the trials at the places of the spend ask. -/
theorem keeps_begun {s : Script} (hbegins : Begins r unlocking locking start s m) :
    Keeps (asking r (Asked r unlocking locking start)) (Run.script r (Script.scan s).1) m :=
  keeps_script fun _ _ _ _ hexecutes htried _ hq =>
    ⟨s, m, _, _, _, _, ⟨hbegins, hexecutes, htried⟩, hq⟩

theorem keeps_redeem {opened locked : Machine} (hnamed : byScriptHash r locking = true)
    (hunlocks : Run.script r (Script.scan unlocking).1 start = .ok () opened)
    (hlocks : Run.script r (Script.scan locking).1 opened = .ok () locked) :
    Keeps (asking r (Asked r unlocking locking start)) (redeem r opened.main) locked := by
  have hL := frames_asking r (Asked r unlocking locking start)
  have hi := hL.toInherited
  unfold redeem
  cases hleft : opened.main with
  | nil => exact keeps_throw hi trivial
  | cons s below =>
    refine keeps_require_bind hi trivial fun _ => ?_
    refine Keeps.bind hi (keeps_of_ok rfl (questions_of_eq rfl)) fun _ m₁ hrecord => ?_
    cases hrecord
    refine (keeps_parse hi s).bind hi fun is m₂ hparse => ?_
    obtain ⟨htail, rfl, rfl⟩ := parse_eq_ok hparse
    refine Keeps.bind hi (keeps_of_ok rfl (questions_of_eq rfl)) fun _ m₃ hset => ?_
    cases hset
    exact (keeps_begun (.redeem hnamed hunlocks hlocks hleft htail)).bind hi fun _ _ _ =>
      keeps_checkTop hL

theorem keeps_finish {L : Law} (hL : L.Inherited r) {left : Stack} {named : Bool}
    (hredeem : named = true → Keeps L (redeem r left) m) :
    Keeps L (do
      if named then redeem r left
      let depth := (← get).main.length
      require (!r.flags.has .cleanStack || depth == 1) (.notClean (depth - 1)) : Run Unit) m := by
  have hend : ∀ m, Keeps L (do
      let depth := (← get).main.length
      require (!r.flags.has .cleanStack || depth == 1) (.notClean (depth - 1)) : Run Unit) m :=
    fun m => Keeps.bind hL (keeps_of_ok rfl (hL.refl m)) fun _ _ _ => keeps_require hL _ trivial
  cases named with
  | true => exact (hredeem rfl).bind hL fun _ _ _ => hend _
  | false => exact hend m

/-- **In a spend only the trials at its places ask.** -/
theorem keeps_spend :
    Keeps (asking r (Asked r unlocking locking m)) (spend r unlocking locking) m := by
  have hL := frames_asking r (Asked r unlocking locking m)
  have hi := hL.toInherited
  refine keeps_require_bind hi trivial fun _ => keeps_require_bind hi trivial fun _ =>
    keeps_require_bind hi trivial fun _ => ?_
  refine (keeps_parse hi unlocking).bind hi fun is m₁ hparse => ?_
  obtain ⟨hunlocking, rfl, rfl⟩ := parse_eq_ok hparse
  refine (keeps_parse hi locking).bind hi fun is m₂ hparse => ?_
  obtain ⟨hlocking, rfl, rfl⟩ := parse_eq_ok hparse
  refine keeps_require_bind hi trivial fun _ => keeps_require_bind hi trivial fun _ => ?_
  refine (keeps_begun (.unlocking hunlocking)).bind hi fun _ opened hunlocks => ?_
  refine Keeps.bind hi (keeps_of_ok rfl (hi.refl opened)) fun _ _ hstate => ?_
  cases hstate
  refine (keeps_begun (.locking hlocking hunlocks)).bind hi fun _ locked hlocks => ?_
  refine (keeps_checkTop hL).bind hi fun _ m₃ htop => ?_
  obtain ⟨-, rfl⟩ := checkTop_eq_ok htop
  exact keeps_finish hi fun hnamed => keeps_redeem hnamed hunlocks hlocks

end

end

end Run

/-! ## Verdicts -/

/-- **What a spend asks and why it is refused.**  Either its rules are, and nothing is asked; or the
rules in force are `e`, every question is one of a trial at a place of the run, and a fault is one
that is possible. -/
theorem execute_cases (r : Rules) (unlocking locking : Script) :
    (r.effective = .error .cleanStackWithoutScriptHash ∧
      (execute r unlocking locking).verdict = .error .cleanStackWithoutScriptHash ∧
      (execute r unlocking locking).requests = []) ∨
    ∃ e, r.effective = .ok e ∧
      (∀ q ∈ (execute r unlocking locking).requests,
        Run.Asked e unlocking locking (.begun r unlocking locking) q) ∧
      ∀ fault, (execute r unlocking locking).verdict = .error fault → fault.Possible e := by
  show (_ ∧ (runSpend r unlocking locking (.begun r unlocking locking)).verdict = _ ∧
      (runSpend r unlocking locking (.begun r unlocking locking)).journal.requests.reverse = []) ∨
    ∃ e, _ ∧ (∀ q ∈
        (runSpend r unlocking locking (.begun r unlocking locking)).journal.requests.reverse, _) ∧
      ∀ fault, (runSpend r unlocking locking (.begun r unlocking locking)).verdict = _ → _
  unfold runSpend
  cases heffective : r.effective with
  | error fault =>
    obtain rfl := Rules.effective_eq_error heffective
    exact .inl ⟨rfl, rfl, rfl⟩
  | ok e =>
    have hkeeps : Run.Keeps (Run.asking e (Run.Asked e unlocking locking (.begun r unlocking locking)))
      (Run.spend e unlocking locking) (.begun r unlocking locking) := Run.keeps_spend
    refine .inr ⟨e, rfl, ?_⟩
    dsimp only
    cases hrun : Run.spend e unlocking locking (.begun r unlocking locking) with
    | ok u after =>
      obtain ⟨new, hnew, hasked⟩ := hkeeps.moves hrun
      refine ⟨fun q hq => hasked q ?_, fun fault hfault => (by cases hfault)⟩
      rw [List.mem_reverse, hnew] at hq
      simpa [Machine.begun] using hq
    | error fault after =>
      obtain ⟨hpossible, new, hnew, hasked⟩ := hkeeps.fails hrun
      refine ⟨fun q hq => hasked q ?_, fun fault' hfault => ?_⟩
      · rw [List.mem_reverse, hnew] at hq
        simpa [Machine.begun] using hq
      · cases hfault
        exact hpossible

end CoinScript
