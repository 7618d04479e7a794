import CoinScript.Proofs.Script.Skeleton

/-!
# Open conditionals

Which conditionals are open before an instruction, and in which arm of each of them it stands, is a
matter of the instructions alone.  It is told here by the grammar of skeletons, from the inside out:

* `Script.Innermost is c k`: the innermost open conditional before the instruction with the number
  `k` is `c`.  Between the instruction that begins the arm and the one with the number `k` every
  conditional is closed.
* `Script.OpenAt is k opened`: the open conditionals are `opened`, innermost first; each one but the
  last stands in an arm of the next.

A place has at most one such list (`OpenAt.unique`): as long as a conditional is open, a reader of
the marks that began at the conditional has it on its list (`Innermost.exists_track`), so between two
candidates for the innermost one the outer one is found not to be it.
-/

namespace CoinScript

/-- Nested marks may follow each other. -/
theorem Nested.append {a b : List Mark} (ha : Nested a) (hb : Nested b) : Nested (a ++ b) := by
  induction ha with
  | nil => exact hb
  | oneArm hbody _ _ ih =>
    simpa using Nested.oneArm hbody ih
  | twoArms hfirst hsecond _ _ _ ih =>
    simpa using Nested.twoArms hfirst hsecond ih

namespace Mark

variable {marks : List Mark} {turned turned' : List Bool}

theorem foldlM_track_append (a b : List Mark) (turned : List Bool) :
    (a ++ b).foldlM track turned = (a.foldlM track turned).bind fun t => b.foldlM track t :=
  List.foldlM_append

/-- What a reader does is not disturbed by conditionals further out. -/
theorem track_frame (outer : List Bool) (h : marks.foldlM track turned = some turned') :
    marks.foldlM track (turned ++ outer) = some (turned' ++ outer) := by
  induction marks generalizing turned with
  | nil =>
    cases h
    rfl
  | cons mark marks ih =>
    rw [List.foldlM_cons] at h ⊢
    obtain ⟨next, hnext, hrest⟩ := Option.bind_eq_some_iff.mp h
    have hstep : track (turned ++ outer) mark = some (next ++ outer) := by
      match turned, mark with
      | [], .opening | _ :: _, .opening | false :: _, .turning | false :: _, .closing
      | true :: _, .closing =>
        cases hnext
        rfl
    rw [hstep]
    exact ih hrest

/-- A reader of nested marks ends as it began. -/
theorem track_of_nested (h : Nested marks) (turned : List Bool) :
    marks.foldlM track turned = some turned := by
  induction h generalizing turned with
  | nil => rfl
  | oneArm _ _ hbody hrest =>
    rw [List.foldlM_cons]
    show List.foldlM track (false :: turned) _ = _
    rw [foldlM_track_append, hbody]
    exact hrest turned
  | twoArms _ _ _ hfirst hsecond hrest =>
    rw [List.foldlM_cons]
    show List.foldlM track (false :: turned) _ = _
    rw [foldlM_track_append, hfirst]
    show List.foldlM track (true :: turned) _ = _
    rw [foldlM_track_append, hsecond]
    exact hrest turned

/-- A reader gets through the front of nested marks, and does not close what was open before. -/
theorem exists_track_of_nested {a b : List Mark} (h : Nested (a ++ b)) (outer : List Bool) :
    ∃ inner, a.foldlM track outer = some (inner ++ outer) := by
  have hall := track_of_nested h []
  rw [foldlM_track_append] at hall
  obtain ⟨inner, hinner, -⟩ := Option.bind_eq_some_iff.mp hall
  exact ⟨inner, track_frame outer hinner⟩

end Mark

/-- An open conditional. -/
structure Conditional where
  /-- The number of the instruction that opens it. -/
  place : Nat
  /-- The second arm has begun. -/
  second : Bool
deriving DecidableEq, Repr

namespace Script

variable {is : List Instruction} {i : Instruction} {j k l place : Nat}

/-! ## Marks between two places -/

/-- The marks of the instructions from the number `j` on, up to the number `k`. -/
def marks (is : List Instruction) (j k : Nat) : List Mark := skeleton ((is.take k).drop j)

theorem marks_self (is : List Instruction) (k : Nat) : marks is k k = [] := by
  unfold marks
  rw [List.drop_eq_nil_of_le (List.length_take_le k is)]
  rfl

theorem marks_split (is : List Instruction) (hj : j ≤ k) (hk : k ≤ l) :
    marks is j l = marks is j k ++ marks is k l := by
  have htake : is.take k = (is.take l).take k := by rw [List.take_take, Nat.min_eq_left hk]
  unfold marks skeleton
  rw [← List.filterMap_append, htake]
  generalize is.take l = front
  have hdrop : front.drop j = (front.take k).drop j ++ front.drop k := by
    conv => lhs; rw [← List.take_append_drop k front]
    rw [List.drop_append, List.length_take]
    rcases Nat.le_total k front.length with hle | hle
    · rw [Nat.min_eq_left hle, Nat.sub_eq_zero_of_le hj, List.drop_zero]
    · rw [List.drop_eq_nil_of_le hle, List.drop_nil]
  rw [hdrop]

/-- One instruction more. -/
theorem marks_succ (hi : is[k]? = some i) (hj : j ≤ k) :
    marks is j (k + 1) = marks is j k ++ i.code.mark?.toList := by
  have hlast : marks is k (k + 1) = i.code.mark?.toList := by
    obtain ⟨hlt, rfl⟩ := List.getElem?_eq_some_iff.mp hi
    unfold marks
    rw [List.take_succ_eq_append_getElem hlt,
      List.drop_append_of_le_length (by rw [List.length_take]; omega),
      List.drop_eq_nil_of_le (List.length_take_le k is), List.nil_append, skeleton_cons]
    exact List.append_nil _
  rw [marks_split is hj (Nat.le_succ k), hlast]

/-- One instruction less. -/
theorem marks_cons (hi : is[j]? = some i) (hj : j < k) :
    marks is j k = i.code.mark?.toList ++ marks is (j + 1) k := by
  rw [marks_split is (Nat.le_succ j) hj, marks_succ hi (Nat.le_refl j), marks_self, List.nil_append]

/-! ## The innermost conditional -/

/-- Before the instruction with the number `k` the conditional is open, and no other was opened
later and is still open. -/
inductive Innermost (is : List Instruction) : Conditional → (k : Nat) → Prop
  | first {place k : Nat} {i : Instruction} (hi : is[place]? = some i)
      (hmark : i.code.mark? = some .opening) (hlt : place < k)
      (hbody : Nested (marks is (place + 1) k)) : Innermost is ⟨place, false⟩ k
  | second {place turn k : Nat} {i : Instruction} (h : Innermost is ⟨place, false⟩ turn)
      (hi : is[turn]? = some i) (hmark : i.code.mark? = some .turning) (hlt : turn < k)
      (hbody : Nested (marks is (turn + 1) k)) : Innermost is ⟨place, true⟩ k

variable {c c' : Conditional}

theorem Innermost.place_lt (h : Innermost is c k) : c.place < k := by
  induction h with
  | first _ _ hlt _ => exact hlt
  | second _ _ _ hlt _ ih => exact Nat.lt_trans ih hlt

/-- Nested marks change nothing. -/
theorem Innermost.extend (h : Innermost is c k) (hk : k ≤ l) (hmarks : Nested (marks is k l)) :
    Innermost is c l := by
  cases h with
  | first hi hmark hlt hbody =>
    refine .first hi hmark (Nat.lt_of_lt_of_le hlt hk) ?_
    rw [marks_split is hlt hk]
    exact hbody.append hmarks
  | second h hi hmark hlt hbody =>
    refine .second h hi hmark (Nat.lt_of_lt_of_le hlt hk) ?_
    rw [marks_split is hlt hk]
    exact hbody.append hmarks

/-- A mark that closes makes the conditional nested. -/
theorem Innermost.nested_of_closing (h : Innermost is c k) (hi : is[k]? = some i)
    (hmark : i.code.mark? = some .closing) : Nested (marks is c.place (k + 1)) := by
  rw [marks_succ hi (Nat.le_of_lt h.place_lt), hmark]
  cases h with
  | first hopen hopening hlt hbody =>
    rw [marks_cons hopen hlt, hopening]
    exact .oneArm hbody .nil
  | @second place turn _ _ hinner hturn hturning hlt hbody =>
    cases hinner with
    | first hopen hopening hlt' hfirst =>
      rw [marks_cons hopen (Nat.lt_trans hlt' hlt), hopening,
        marks_split is hlt' (Nat.le_of_lt hlt), marks_cons hturn hlt, hturning]
      simpa using Nested.twoArms hfirst hbody .nil

/-- A reader that starts where the conditional opens has it on its list when it comes to the
place. -/
theorem Innermost.track_eq (h : Innermost is c k) (turned : List Bool) :
    (marks is c.place k).foldlM Mark.track turned = some (c.second :: turned) := by
  induction h with
  | first hi hmark hlt hbody =>
    rw [marks_cons hi hlt, hmark]
    exact Mark.track_of_nested hbody (false :: turned)
  | second h hi hmark hlt hbody ih =>
    rw [marks_split is (Nat.le_of_lt h.place_lt) (Nat.le_of_lt hlt), Mark.foldlM_track_append, ih,
      marks_cons hi hlt, hmark]
    exact Mark.track_of_nested hbody (true :: turned)

/-- Such a reader has it on its list all the way. -/
theorem Innermost.exists_track (h : Innermost is c k) (hj : c.place < j) (hk : j ≤ k) :
    ∃ inner turned, (marks is c.place j).foldlM Mark.track [] = some (inner ++ [turned]) := by
  induction h with
  | first hi hmark hlt hbody =>
    rw [marks_cons hi hj, hmark]
    rw [marks_split is hj hk] at hbody
    obtain ⟨inner, hinner⟩ := Mark.exists_track_of_nested hbody [false]
    exact ⟨inner, false, hinner⟩
  | @second place turn k i h hi hmark hlt hbody ih =>
    rcases Nat.lt_or_ge turn j with hturned | hnot
    · rw [marks_split is (Nat.le_of_lt h.place_lt) (Nat.le_of_lt hturned), Mark.foldlM_track_append,
        h.track_eq [], marks_cons hi hturned, hmark]
      rw [marks_split is hturned hk] at hbody
      obtain ⟨inner, hinner⟩ := Mark.exists_track_of_nested hbody [true]
      exact ⟨inner, true, hinner⟩
    · exact ih hj hnot

/-- A place has at most one innermost open conditional. -/
theorem Innermost.unique (h : Innermost is c k) (h' : Innermost is c' k) : c' = c := by
  -- the one that opened earlier is still on the list below the other one
  have hnot : ∀ {c c' : Conditional}, Innermost is c k → Innermost is c' k →
      ¬c.place < c'.place := by
    intro c c' h h' hlt
    obtain ⟨inner, turned, htrack⟩ := h.exists_track hlt (Nat.le_of_lt h'.place_lt)
    have hall := h.track_eq []
    rw [marks_split is (Nat.le_of_lt hlt) (Nat.le_of_lt h'.place_lt), Mark.foldlM_track_append,
      htrack] at hall
    have hlists := (h'.track_eq (inner ++ [turned])).symm.trans hall
    simp at hlists
  have hplace : c'.place = c.place :=
    Nat.le_antisymm (Nat.not_lt.mp (hnot h h')) (Nat.not_lt.mp (hnot h' h))
  have hsecond := (h'.track_eq []).symm.trans (hplace ▸ h.track_eq [])
  cases c
  cases c'
  cases hplace
  cases hsecond
  rfl

/-! ## All open conditionals -/

/-- Before the instruction with the number `k` these conditionals are open, innermost first. -/
inductive OpenAt (is : List Instruction) : (k : Nat) → List Conditional → Prop
  | outside {k : Nat} (h : Nested (marks is 0 k)) : OpenAt is k []
  | inside {k : Nat} {c : Conditional} {outer : List Conditional} (h : Innermost is c k)
      (houter : OpenAt is c.place outer) : OpenAt is k (c :: outer)

variable {opened opened' outer : List Conditional}

theorem OpenAt.start (is : List Instruction) : OpenAt is 0 [] := by
  refine .outside ?_
  rw [marks_self]
  exact .nil

/-- Nested marks change nothing. -/
theorem OpenAt.extend (h : OpenAt is k opened) (hk : k ≤ l) (hmarks : Nested (marks is k l)) :
    OpenAt is l opened := by
  cases h with
  | outside h =>
    refine .outside ?_
    rw [marks_split is (Nat.zero_le k) hk]
    exact h.append hmarks
  | inside h houter => exact .inside (h.extend hk hmarks) houter

theorem OpenAt.plain (h : OpenAt is k opened) (hi : is[k]? = some i)
    (hmark : i.code.mark? = none) : OpenAt is (k + 1) opened := by
  refine h.extend (Nat.le_succ k) ?_
  rw [marks_succ hi (Nat.le_refl k), marks_self, hmark]
  exact .nil

theorem OpenAt.opening (h : OpenAt is k opened) (hi : is[k]? = some i)
    (hmark : i.code.mark? = some .opening) : OpenAt is (k + 1) (⟨k, false⟩ :: opened) := by
  refine .inside (.first hi hmark (Nat.lt_succ_self k) ?_) h
  rw [marks_self]
  exact .nil

theorem OpenAt.turning (h : OpenAt is k (⟨place, false⟩ :: outer)) (hi : is[k]? = some i)
    (hmark : i.code.mark? = some .turning) : OpenAt is (k + 1) (⟨place, true⟩ :: outer) := by
  cases h with
  | inside h houter =>
    refine .inside (.second h hi hmark (Nat.lt_succ_self k) ?_) houter
    rw [marks_self]
    exact .nil

theorem OpenAt.closing (h : OpenAt is k (c :: outer)) (hi : is[k]? = some i)
    (hmark : i.code.mark? = some .closing) : OpenAt is (k + 1) outer := by
  cases h with
  | inside h houter =>
    exact houter.extend (Nat.le_of_lt (Nat.lt_succ_of_lt h.place_lt))
      (h.nested_of_closing hi hmark)

/-- A reader of all marks in front of the place has the open conditionals on its list. -/
theorem OpenAt.track_eq (h : OpenAt is k opened) :
    (marks is 0 k).foldlM Mark.track [] = some (opened.map Conditional.second) := by
  induction h with
  | outside h => exact Mark.track_of_nested h []
  | inside h _ ih =>
    rw [marks_split is (Nat.zero_le _) (Nat.le_of_lt h.place_lt), Mark.foldlM_track_append, ih]
    exact h.track_eq _

/-- **The open conditionals of a place are determined by the instructions.** -/
theorem OpenAt.unique (h : OpenAt is k opened) (h' : OpenAt is k opened') : opened' = opened := by
  induction h generalizing opened' with
  | outside h =>
    have hnone := Mark.track_of_nested h []
    rw [h'.track_eq] at hnone
    exact List.map_eq_nil_iff.mp (Option.some.inj hnone)
  | inside h houter ih =>
    cases h' with
    | outside h' =>
      have hnone := Mark.track_of_nested h' []
      rw [(OpenAt.inside h houter).track_eq] at hnone
      cases hnone
    | inside h' houter' =>
      obtain rfl := h.unique h'
      rw [ih houter']

/-- An `ELSE` outside all conditionals or in the second arm of one, or an `ENDIF` outside. -/
inductive Mismatched (is : List Instruction) (k : Nat) (i : Instruction) : Prop
  | turnOutside (hcode : i.code = 0x67) (h : OpenAt is k [])
  | turnAgain {place : Nat} {outer : List Conditional} (hcode : i.code = 0x67)
      (h : OpenAt is k (⟨place, true⟩ :: outer))
  | closeOutside (hcode : i.code = 0x68) (h : OpenAt is k [])

end Script

end CoinScript
