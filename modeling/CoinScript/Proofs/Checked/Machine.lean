import CoinScript.Proofs.Checked.Stack
import CoinScript.Proofs.Machine.Branches

/-!
# The machine on words and arrays

The parts of a step: the two stacks, the count of operations and the open conditionals.

`Held n` is the invariant of a run.  Memory has room for what both stacks hold and for the open
conditionals, the number of conditionals whose arm is not taken is what their list says, and the
operations counted, the elements on both stacks and the open conditionals are together at most `n`.  The
last bound is the one that a run can keep: a check of several signatures counts as many operations as
it was given keys, and takes these keys from the stack (`tracks_popMany`).  So `n` grows by a few with
every instruction, and the operations counted are always a word.

`Modest` limits leave so much room that memory is not exhausted under them.
-/

namespace CoinScript.Checked.Run

open CoinScript.Checked.Stack (Stored Sized InMemory Room)

/-- A step of a run, on words and arrays. -/
abbrev Steps (α : Type) := EStateM (Stop Fault) Machine α

variable {ample : Prop} {n d k : Nat} {α : Type} {Q : α → Prop} {r : Rules} {m : Machine}
  {b b' : Branches} {frame : Branch}

/-! ## The parts -/

/-- A computation on the main stack. -/
def onMain (x : Stack.StackM α) : Steps α := fun m =>
  match x m.main with
  | .ok a s => .ok a { m with main := s }
  | .error stop s => .error stop { m with main := s }

/-- A computation on the alt stack. -/
def onAlt (x : Stack.StackM α) : Steps α := fun m =>
  match x m.alt with
  | .ok a s => .ok a { m with alt := s }
  | .error stop s => .error stop { m with alt := s }

/-- Takes the top of the main stack. -/
def pop : Steps Bytes := onMain Stack.pop

/-- Takes the top as an operand. -/
def popNumber (r : Rules) : Steps Int := onMain (Stack.popNumber r.numberFormat)

/-- Puts an element on the main stack. -/
def push (b : Bytes) : Steps Unit := onMain (Stack.push b)

/-- Puts a number on the main stack. -/
def pushNumber (n : Int) : Steps Unit := onMain (Stack.pushNumber n)

/-- Puts a truth value on the main stack. -/
def pushTruth (v : Bool) : Steps Unit := onMain (Stack.pushTruth v)

/-- Takes the top, which has to be true. -/
def verifyTop (op : Opcode) : Steps Unit := do
  require (← onMain Stack.popTruth) (.checkFailed op)

/-- Counts `n` operations. -/
def countOperations (r : Rules) (n : Nat) : Steps Unit := do
  let total ← checked (add (← get).operations n)
  modify fun m => { m with operations := total }
  require (decide (total ≤ r.limits.maxOps)) (.tooManyOperations r.limits.maxOps)

/-! ## Open conditionals -/

/-- Opens a conditional. -/
def opening (frame : Branch) (b : Branches) : Checked Fault Branches := do
  let notTaken ← if frame.taken then .ok b.notTaken else add b.notTaken 1
  allocate (b.frames.length + 1) 3
  return ⟨frame :: b.frames, notTaken⟩

/-- Begins the second arm of the innermost conditional. -/
def turning (b : Branches) : Checked Fault Branches :=
  match b.frames with
  | [] => refuse .turnOutside
  | frame :: outer =>
    if frame.turned then refuse .turnAgain
    else if frame.skipped then return { b with frames := { frame with turned := true } :: outer }
    else do
      let notTaken ← if frame.taken then add b.notTaken 1 else sub b.notTaken 1
      return ⟨{ frame with turned := true, taken := !frame.taken } :: outer, notTaken⟩

/-- Closes the innermost conditional. -/
def closing (b : Branches) : Checked Fault Branches :=
  match b.frames with
  | [] => refuse .closeOutside
  | frame :: outer => do
    let notTaken ← if frame.taken then .ok b.notTaken else sub b.notTaken 1
    return ⟨outer, notTaken⟩

/-- Changes the open conditionals. -/
def onBranches (f : Branches → Checked Fault Branches) : Steps Unit := do
  let branches ← checked (f (← get).branches)
  modify fun m => { m with branches }

/-- The count of the conditionals whose arm is not taken is right, and memory has room for all of
them. -/
structure Counted (b : Branches) : Prop where
  tallied : b.Tallied
  room : b.frames.length * 3 ≤ addressSpace

theorem notTaken_le (h : b.Tallied) : b.notTaken ≤ b.frames.length := by
  rw [h]
  exact List.countP_le_length

theorem Counted.add_notTaken (h : Counted b) :
    (add b.notTaken 1 : Checked Fault Nat) = .ok (b.notTaken + 1) := by
  have hle := notTaken_le h.tallied
  have hroom := h.room
  have hword : addressSpace + 1 < wordSize := by decide
  exact add_of_lt (by omega)

/-- The branches are counted, and there are at most `k` of them. -/
structure Nested (k : Nat) (b : Branches) : Prop extends Counted b where
  depth : b.frames.length ≤ k

theorem opening_spared (h : Nested k b) (hk : Room ample (k + 1)) (frame : Branch) :
    Spared ample (Nested (k + 1)) (opening frame b) (.ok (b.add frame)) := by
  have hdepth := h.depth
  have hample (hyes : ample) : (b.frames.length + 1) * 3 ≤ addressSpace := by
    have hroom := hk hyes
    omega
  have hnested (hroom : (b.frames.length + 1) * 3 ≤ addressSpace) : Nested (k + 1) (b.add frame) :=
    ⟨⟨h.tallied.add frame, hroom⟩, Nat.succ_le_succ hdepth⟩
  unfold opening Branches.add at *
  cases htaken : frame.taken with
  | true =>
    rw [htaken] at hnested
    exact spared_allocate_bind hample fun hroom => .ok (hnested hroom)
  | false =>
    rw [htaken] at hnested
    rw [if_neg Bool.false_ne_true, h.add_notTaken]
    exact spared_allocate_bind hample fun hroom => .ok (hnested hroom)

theorem turning_spared (h : Nested k b) : Spared ample (Nested k) (turning b) b.turning := by
  have hafter (b' : Branches) (hb : b.turning = .ok b') : Nested k b' := by
    obtain ⟨frame, outer, hframes, -, hframes'⟩ := Branches.turning_eq_ok hb
    have hlength : b'.frames.length = b.frames.length := by rw [hframes, hframes']; rfl
    exact ⟨⟨h.tallied.turning hb, hlength ▸ h.room⟩, hlength ▸ h.depth⟩
  have heq : turning b = ofExcept b.turning := by
    unfold turning Branches.turning
    cases hframes : b.frames with
    | nil => rfl
    | cons frame outer =>
      dsimp only
      split
      · rfl
      split
      · rfl
      cases htaken : frame.taken with
      | true =>
        rw [if_pos rfl, h.add_notTaken]
        rfl
      | false =>
        have hpos : 0 < b.notTaken := h.tallied.pos (hframes ▸ List.mem_cons_self) htaken
        rw [if_neg Bool.false_ne_true, sub_of_le hpos]
        rfl
  rw [heq]
  exact spared_ofExcept hafter

theorem closing_spared (h : Nested k b) : Spared ample (Nested k) (closing b) b.closing := by
  have hafter (b' : Branches) (hb : b.closing = .ok b') : Nested k b' := by
    obtain ⟨frame, hframes⟩ := Branches.closing_eq_ok hb
    have hroom := h.room
    have hdepth := h.depth
    rw [hframes, List.length_cons] at hroom hdepth
    exact ⟨⟨h.tallied.closing hb, by omega⟩, Nat.le_of_succ_le hdepth⟩
  have heq : closing b = ofExcept b.closing := by
    unfold closing Branches.closing
    cases hframes : b.frames with
    | nil => rfl
    | cons frame outer =>
      dsimp only
      cases htaken : frame.taken with
      | true => rfl
      | false =>
        have hpos : 0 < b.notTaken := h.tallied.pos (hframes ▸ List.mem_cons_self) htaken
        rw [if_neg Bool.false_ne_true, sub_of_le hpos]
        rfl
  rw [heq]
  exact spared_ofExcept hafter

/-! ## The invariant -/

/-- **The invariant of a run**: memory holds what there is, and the operations counted, the elements on
both stacks and the open conditionals are at most `n` together. -/
structure Held (n : Nat) (m : Machine) : Prop where
  main : Stored m.main
  alt : Stored m.alt
  branches : Counted m.branches
  count : m.operations + m.main.length + m.alt.length + m.branches.frames.length ≤ n

theorem Held.mono {j : Nat} (h : Held n m) (hle : n ≤ j) : Held j m :=
  ⟨h.main, h.alt, h.branches, Nat.le_trans h.count hle⟩

/-- The journal takes no part in it. -/
theorem Held.of_journal (h : Held n m) (journal : Journal) : Held n { m with journal } :=
  ⟨h.main, h.alt, h.branches, h.count⟩

/-- Under these limits all that a spend can make is far smaller than memory. -/
structure Modest (l : Limits) : Prop where
  script : (16 * l.maxScriptSize + 8) * 32 ≤ addressSpace
  element : l.maxElementSize ≤ addressSpace
  number : 2 * l.maxNumberLength + 1 ≤ addressSpace
  keys : l.maxKeysPerMultisig * 24 ≤ addressSpace

/-- Both profiles of limits are modest. -/
theorem modest_profiles : Modest .consensus ∧ Modest .relaxed :=
  ⟨⟨by decide, by decide, by decide, by decide⟩, ⟨by decide, by decide, by decide, by decide⟩⟩

/-- What the operation on the main stack leaves. -/
theorem same_onMain {J : Stack → Prop} {K : Machine → Prop} {x : Stack.StackM α}
    {y : CoinScript.StackM α}
    (h : Same ample J Q (x m.main) (y m.main))
    (hK : ∀ a s, y m.main = .ok a s → Q a → J s → K { m with main := s }) :
    Same ample K Q (onMain x m) (CoinScript.Run.onMain y m) := by
  unfold onMain CoinScript.Run.onMain
  generalize x m.main = result at h
  generalize y m.main = result' at h hK
  cases h with
  | ok ha hs => exact .ok ha (hK _ _ rfl ha hs)
  | refused cause s => exact .refused cause _
  | exhausted h s => exact .exhausted h _ _

theorem tracks_onMain {x : Stack.StackM α} {y : CoinScript.StackM α}
    (h : ∀ k ≤ n, Tracks ample (Sized k) (Sized (k + d)) Q x y) :
    Tracks ample (Held n) (Held (n + d)) Q (onMain x) (CoinScript.Run.onMain y) := by
  intro m hm
  have hcount := hm.count
  have hsame := h m.main.length (by omega) m.main ⟨hm.main, Nat.le_refl _⟩
  refine same_onMain hsame fun a s _ _ hs => ?_
  have hdepth := hs.depth
  exact ⟨hs.toStored, hm.alt, hm.branches, by dsimp only; omega⟩

theorem tracks_onAlt {x : Stack.StackM α} {y : CoinScript.StackM α}
    (h : ∀ k ≤ n, Tracks ample (Sized k) (Sized (k + d)) Q x y) :
    Tracks ample (Held n) (Held (n + d)) Q (onAlt x) (CoinScript.Run.onAlt y) := by
  intro m hm
  have hcount := hm.count
  have hsame := h m.alt.length (by omega) m.alt ⟨hm.alt, Nat.le_refl _⟩
  unfold onAlt CoinScript.Run.onAlt
  generalize x m.alt = result at hsame
  generalize y m.alt = result' at hsame
  cases hsame with
  | ok ha hs =>
    have hdepth := hs.depth
    exact .ok ha ⟨hm.main, hs.toStored, hm.branches, by dsimp only; omega⟩
  | refused cause s => exact .refused cause _
  | exhausted h s => exact .exhausted h _ _

/-- What leaves the main stack no larger. -/
theorem tracks_onMain_same {x : Stack.StackM α} {y : CoinScript.StackM α}
    (h : ∀ k, Tracks ample (Sized k) (Sized k) Q x y) :
    Tracks ample (Held n) (Held n) Q (onMain x) (CoinScript.Run.onMain y) :=
  tracks_onMain (d := 0) fun k _ => h k

/-- **The elements that are taken make up for as many operations.** -/
theorem tracks_popMany (k : Nat) :
    Tracks ample (Held (n + k)) (Held n) (fun bs => bs.length = k ∧ ∀ b ∈ bs, InMemory b)
      (onMain (Stack.popMany k)) (CoinScript.Run.onMain (CoinScript.Stack.popMany k)) := by
  intro m hm
  refine same_onMain (Stack.tracks_popMany k m.main ⟨hm.main, Nat.le_refl _⟩) ?_
  rintro bs s hs ⟨hlength, -⟩ hsized
  have hcount := hm.count
  have hmain : m.main.length = bs.length + s.length := by
    rw [CoinScript.Run.popMany_eq_ok hs, List.length_append]
  exact ⟨hsized.toStored, hm.alt, hm.branches, by dsimp only; omega⟩

/-! ## They do what the program does -/

theorem tracks_pop : Tracks ample (Held n) (Held n) InMemory pop CoinScript.Run.pop :=
  tracks_onMain_same fun _ => Stack.tracks_pop

theorem tracks_popNumber (r : Rules) :
    Tracks ample (Held n) (Held n) (Number.Fits r.limits.maxNumberLength) (popNumber r)
      (CoinScript.Run.popNumber r) :=
  tracks_onMain_same fun _ => Stack.tracks_popNumber r.numberFormat

theorem tracks_push {b : Bytes} (hn : Room ample (n + 1)) (hb : ample → InMemory b) :
    Tracks ample (Held n) (Held (n + 1)) Any (push b) (CoinScript.Run.push b) :=
  tracks_onMain fun _ hk => Stack.tracks_push (hn.mono (Nat.succ_le_succ hk)) hb

theorem tracks_pushNumber {v : Int} (hn : Room ample (n + 1))
    (hv : ample → InMemory (Number.encode v)) :
    Tracks ample (Held n) (Held (n + 1)) Any (pushNumber v) (CoinScript.Run.pushNumber v) :=
  tracks_onMain fun _ hk => Stack.tracks_pushNumber (hn.mono (Nat.succ_le_succ hk)) hv

theorem tracks_pushTruth (v : Bool) (hn : Room ample (n + 1)) :
    Tracks ample (Held n) (Held (n + 1)) Any (pushTruth v) (CoinScript.Run.pushTruth v) :=
  tracks_onMain fun _ hk => Stack.tracks_pushTruth v (hn.mono (Nat.succ_le_succ hk))

theorem tracks_require {I : Machine → Prop} (c : Bool) (fault : Fault) :
    Tracks ample I I (fun _ => c = true) (require c fault) (CoinScript.Run.require c fault) := by
  cases c with
  | true => exact tracks_pure rfl
  | false => exact tracks_throw fault

/-- A check that the rest of a program does not rely on. -/
theorem tracks_check {I : Machine → Prop} (c : Bool) (fault : Fault) :
    Tracks ample I I Any (require c fault) (CoinScript.Run.require c fault) :=
  (tracks_require c fault).mono (fun _ h => h) fun _ _ => trivial

/-- A check that the rest of a program may rely on. -/
theorem tracks_require_bind {I J : Machine → Prop} {c : Bool} {fault : Fault}
    {f : Unit → Steps α} {g : Unit → CoinScript.Run α}
    (h : c = true → Tracks ample I J Q (f ()) (g ())) :
    Tracks ample I J Q (require c fault >>= f) (CoinScript.Run.require c fault >>= g) :=
  (tracks_require c fault).bind fun _ => h

theorem tracks_verifyTop (op : Opcode) :
    Tracks ample (Held n) (Held n) Any (verifyTop op) (CoinScript.Run.verifyTop op) :=
  (tracks_onMain_same fun _ => Stack.tracks_popTruth).bind fun v _ => tracks_check v _

theorem tracks_countOperations (hword : n + k < wordSize) :
    Tracks ample (Held n) (Held (n + k)) Any (countOperations r k)
      (CoinScript.Run.countOperations r k) := by
  refine .of_get fun m hm => ?_
  have hcount := hm.count
  have hafter : Held (n + k) { m with operations := m.operations + k } :=
    ⟨hm.main, hm.alt, hm.branches, by dsimp only; omega⟩
  refine .of_ok (add_of_lt (by omega)) ?_
  rintro _ rfl
  exact tracks_check _ _ _ hafter

theorem tracks_ofExcept {I : Machine → Prop} {x : Checked Fault α} {y : Except Fault α}
    (h : Spared ample Q x y) : Tracks ample I I Q (checked x) (CoinScript.Run.ofExcept y) := by
  intro m hm
  cases h with
  | ok h => exact .ok h hm
  | refused cause => exact .refused cause m
  | exhausted h y => exact .exhausted h m _

theorem tracks_record (e : Event) :
    Tracks ample (Held n) (Held n) Any (lift (CoinScript.Run.record e))
      (CoinScript.Run.record e) := by
  refine tracks_lift fun m u m' hm h => ?_
  cases h
  exact ⟨trivial, hm.of_journal _⟩

theorem tracks_onBranches {f : Branches → Checked Fault Branches}
    {g : Branches → Except Fault Branches}
    (h : ∀ k ≤ n, ∀ b, Nested k b → Spared ample (Nested (k + d)) (f b) (g b)) :
    Tracks ample (Held n) (Held (n + d)) Any (onBranches f) (CoinScript.Run.onBranches g) := by
  refine .get_bind fun m hm => ?_
  have hcount := hm.count
  have hspared := h m.branches.frames.length (by omega) m.branches ⟨hm.branches, Nat.le_refl _⟩
  refine ((tracks_ofExcept (I := fun m' => m' = m) hspared).bind fun b hb => ?_) m rfl
  refine tracks_modify ?_
  rintro _ rfl
  have hdepth := hb.depth
  exact ⟨hm.main, hm.alt, hb.toCounted, by dsimp only; omega⟩

end CoinScript.Checked.Run
