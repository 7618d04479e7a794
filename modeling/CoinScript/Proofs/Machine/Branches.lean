import CoinScript.Machine.Branches

/-!
# The frames of conditionals

What is left by an `ELSE` and an `ENDIF` that succeed, and when they fail.  `Branches.Tallied` says
that the number kept beside the frames is right; every change of the frames keeps it so, and as long
as it is, nothing is taken from zero (`Tallied.pos`).
-/

namespace CoinScript

namespace Branches

variable {b b' : Branches} {frame : Branch} {fault : Fault}

/-! ## Successes and failures -/

theorem turning_eq_ok (h : b.turning = .ok b') :
    ∃ frame outer, b.frames = frame :: outer ∧ frame.turned = false ∧
      b'.frames = { frame with
        turned := true, taken := if frame.skipped then frame.taken else !frame.taken } :: outer := by
  unfold turning at h
  cases hframes : b.frames with
  | nil =>
    rw [hframes] at h
    cases h
  | cons frame outer =>
    rw [hframes] at h
    dsimp only at h
    refine ⟨frame, outer, rfl, ?_⟩
    cases hturned : frame.turned with
    | true =>
      rw [hturned] at h
      cases h
    | false =>
      rw [hturned, if_neg Bool.false_ne_true] at h
      cases hskipped : frame.skipped with
      | true =>
        rw [hskipped] at h
        cases h
        exact ⟨rfl, rfl⟩
      | false =>
        rw [hskipped] at h
        cases h
        exact ⟨rfl, rfl⟩

theorem closing_eq_ok (h : b.closing = .ok b') : ∃ frame, b.frames = frame :: b'.frames := by
  unfold closing at h
  cases hframes : b.frames with
  | nil =>
    rw [hframes] at h
    cases h
  | cons frame outer =>
    rw [hframes] at h
    cases h
    exact ⟨frame, rfl⟩

theorem turning_eq_error (h : b.turning = .error fault) :
    b.frames = [] ∧ fault = .turnOutside ∨
      (∃ frame outer, b.frames = frame :: outer ∧ frame.turned = true) ∧ fault = .turnAgain := by
  unfold turning at h
  cases hframes : b.frames with
  | nil =>
    rw [hframes] at h
    cases h
    exact .inl ⟨rfl, rfl⟩
  | cons frame outer =>
    rw [hframes] at h
    dsimp only at h
    split at h
    · next hturned =>
      cases h
      exact .inr ⟨⟨frame, outer, rfl, hturned⟩, rfl⟩
    · split at h <;> cases h

theorem turning_of_nil (h : b.frames = []) : b.turning = .error .turnOutside := by
  unfold turning
  rw [h]

theorem turning_of_turned {outer : List Branch} (h : b.frames = frame :: outer)
    (hturned : frame.turned = true) : b.turning = .error .turnAgain := by
  unfold turning
  rw [h]
  dsimp only
  rw [if_pos hturned]

theorem closing_eq_error (h : b.closing = .error fault) :
    b.frames = [] ∧ fault = .closeOutside := by
  unfold closing at h
  cases hframes : b.frames with
  | nil =>
    rw [hframes] at h
    cases h
    exact ⟨rfl, rfl⟩
  | cons frame outer =>
    rw [hframes] at h
    cases h

theorem closing_of_nil (h : b.frames = []) : b.closing = .error .closeOutside := by
  unfold closing
  rw [h]

/-! ## The count -/

/-- The number kept beside the frames is the number of those whose arm is not taken. -/
def Tallied (b : Branches) : Prop := b.notTaken = b.frames.countP fun frame => !frame.taken

theorem Tallied.pos (h : b.Tallied) (hframe : frame ∈ b.frames) (hnot : frame.taken = false) :
    0 < b.notTaken := by
  rw [h, List.countP_pos_iff]
  exact ⟨frame, hframe, by rw [hnot]; rfl⟩

theorem Tallied.isExecuting_iff (h : b.Tallied) :
    b.isExecuting = true ↔ ∀ frame ∈ b.frames, frame.taken = true := by
  unfold isExecuting
  rw [beq_iff_eq, h, List.countP_eq_zero]
  simp only [Bool.not_eq_true', Bool.not_eq_false]

theorem Tallied.add (h : b.Tallied) (frame : Branch) : (b.add frame).Tallied := by
  unfold Tallied at h ⊢
  unfold Branches.add
  dsimp only
  rw [List.countP_cons, h]
  cases frame.taken <;> rfl

/-- Where a frame that is not taken is turned, it has been counted, so one less is not below
zero. -/
theorem Tallied.turning (h : b.Tallied) (hb : b.turning = .ok b') : b'.Tallied := by
  unfold Tallied at h ⊢
  unfold Branches.turning at hb
  cases hframes : b.frames with
  | nil =>
    rw [hframes] at hb
    cases hb
  | cons frame outer =>
    rw [hframes, List.countP_cons] at h
    rw [hframes] at hb
    dsimp only at hb
    split at hb
    · cases hb
    · split at hb
      · cases hb
        rw [List.countP_cons]
        exact h
      · cases hb
        rw [List.countP_cons]
        cases htaken : frame.taken with
        | true => simpa [htaken] using h
        | false => simp [htaken, h]

theorem Tallied.closing (h : b.Tallied) (hb : b.closing = .ok b') : b'.Tallied := by
  unfold Tallied at h ⊢
  unfold Branches.closing at hb
  cases hframes : b.frames with
  | nil =>
    rw [hframes] at hb
    cases hb
  | cons frame outer =>
    rw [hframes, List.countP_cons] at h
    rw [hframes] at hb
    cases hb
    cases htaken : frame.taken <;> simp [htaken, h]

end Branches

end CoinScript
