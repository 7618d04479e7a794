import CoinScript.Machine.Stack
import CoinScript.Proofs.Sequencing
import Mathlib.Data.List.Induction

/-!
# Moves of blocks

Operations on blocks never see a block: they repeat one move at a fixed depth.  The element at that
depth is the last one of the block.  Once it is on top, everything down to the place where it stood is
one deeper, so the same depth finds the element that stood above it.  In this way the block is rebuilt
on top from its last element to its first, and its order is kept.

Moving and copying differ only in what a move leaves behind, so one induction serves both
(`times_block`).  In it the block gets shorter at its end, and the elements that have been moved count
as standing above what is left of it.

Where elements are missing the first move fails, before anything has been moved.
-/

namespace CoinScript.Stack

variable {move : StackM Unit} {s t : Stack} {n index depth : Nat}

/-! ## One move -/

/-- The elements above and below one. -/
theorem exists_above {b : Bytes} (h : s[index]? = some b) :
    ∃ above below : Stack, s = above ++ b :: below ∧ above.length = index := by
  obtain ⟨hindex, hb⟩ := List.getElem?_eq_some_iff.mp h
  refine ⟨List.take index s, List.drop (index + 1) s, ?_,
    List.length_take_of_le (Nat.le_of_lt hindex)⟩
  rw [← hb, List.getElem_cons_drop, List.take_append_drop]

theorem peek_append (above : Stack) (b : Bytes) (below : Stack) (h : above.length = depth) :
    peek depth (above ++ b :: below) = .ok b (above ++ b :: below) := by
  subst h
  unfold peek
  rw [List.getElem?_append_right (Nat.le_refl _), Nat.sub_self]
  rfl

theorem take_append (above : Stack) (b : Bytes) (below : Stack) (h : above.length = depth) :
    take depth (above ++ b :: below) = .ok b (above ++ below) := by
  subst h
  unfold take
  rw [List.getElem?_append_right (Nat.le_refl _), Nat.sub_self,
    List.eraseIdx_append_of_length_le (Nat.le_refl _), Nat.sub_self]
  rfl

theorem pick_append (above : Stack) (b : Bytes) (below : Stack) (h : above.length = depth) :
    pick depth (above ++ b :: below) = .ok () (b :: above ++ b :: below) := by
  unfold pick
  rw [bind_of_ok (peek_append above b below h)]
  rfl

theorem roll_append (above : Stack) (b : Bytes) (below : Stack) (h : above.length = depth) :
    roll depth (above ++ b :: below) = .ok () (b :: above ++ below) := by
  unfold roll
  rw [bind_of_ok (take_append above b below h)]
  rfl

theorem peek_of_length_le (h : s.length ≤ index) :
    peek index s = .error (.noElement index s.length) s := by
  unfold peek
  rw [List.getElem?_eq_none h]

theorem take_of_length_le (h : s.length ≤ index) :
    take index s = .error (.noElement index s.length) s := by
  unfold take
  rw [List.getElem?_eq_none h]

theorem pick_of_length_le (h : s.length ≤ index) :
    pick index s = .error (.noElement index s.length) s :=
  bind_of_error (peek_of_length_le h)

theorem roll_of_length_le (h : s.length ≤ index) :
    roll index s = .error (.noElement index s.length) s :=
  bind_of_error (take_of_length_le h)

/-- An element that is there is copied, or moved past those above it. -/
theorem exists_pick_roll (h : index < s.length) :
    ∃ above b below, s = above ++ b :: below ∧ above.length = index ∧
      pick index s = .ok () (b :: s) ∧ roll index s = .ok () (b :: above ++ below) := by
  obtain ⟨b, hb⟩ : ∃ b, s[index]? = some b := ⟨s[index], List.getElem?_eq_getElem h⟩
  obtain ⟨above, below, rfl, hindex⟩ := exists_above hb
  exact ⟨above, b, below, rfl, hindex, pick_append above b below hindex,
    roll_append above b below hindex⟩

/-! ## The same move again -/

theorem times_of_ok (h : move s = .ok () t) : times move (n + 1) s = times move n t :=
  bind_of_ok h

/-- A failure of the first move is all that happens. -/
theorem times_of_error {fault : Fault} (hn : 0 < n) (h : move s = .error fault t) :
    times move n s = .error fault t := by
  obtain ⟨k, rfl⟩ := Nat.exists_eq_add_one.mpr hn
  exact bind_of_error h

/-- **A block comes to the top** if the move takes the element at a fixed depth there.  What a move
`leaves` where the element stood is left in the place of the block. -/
theorem times_block (leaves : Bytes → Stack)
    (hmove : ∀ above b below, above.length = depth →
      move (above ++ b :: below) = .ok () (b :: above ++ (leaves b ++ below)))
    (above block below : Stack) (h : depth + 1 = above.length + block.length) :
    times move block.length (above ++ block ++ below) =
      .ok () (block ++ above ++ (block.flatMap leaves ++ below)) := by
  -- The last element of the block goes first, and stands above what is left of the block from then on.
  induction block using List.reverseRecOn generalizing above below with
  | nil =>
    rw [List.append_nil]
    rfl
  | append_singleton block b ih =>
    rw [List.length_append, List.length_singleton] at h ⊢
    have hdepth : (above ++ block).length = depth := by
      rw [List.length_append]
      omega
    have hfirst : move (above ++ (block ++ [b]) ++ below) =
        .ok () (b :: above ++ block ++ (leaves b ++ below)) := by
      simpa using hmove (above ++ block) b below hdepth
    have hrest : depth + 1 = (b :: above).length + block.length := by
      rw [List.length_cons]
      omega
    rw [times_of_ok hfirst, ih (b :: above) (leaves b ++ below) hrest]
    simp

/-- **A block is moved to the top.** -/
theorem times_roll (above block below : Stack) (h : depth + 1 = above.length + block.length) :
    times (roll depth) block.length (above ++ block ++ below) =
      .ok () (block ++ above ++ below) := by
  have hnothing : block.flatMap (fun _ => ([] : Stack)) = [] :=
    List.flatMap_eq_nil_iff.mpr fun _ _ => rfl
  simpa [hnothing] using times_block (fun _ => []) roll_append above block below h

/-- **A block is copied to the top.** -/
theorem times_pick (above block below : Stack) (h : depth + 1 = above.length + block.length) :
    times (pick depth) block.length (above ++ block ++ below) =
      .ok () (block ++ above ++ block ++ below) := by
  simpa using times_block (fun b => [b]) pick_append above block below h

/-! ## Too few elements -/

/-- The operation fails for want of elements and leaves the stack as it is. -/
def Declines (x : StackM Unit) (s : Stack) : Prop :=
  ∃ fault, x s = .error fault s ∧ fault.code = .invalidStackOperation

theorem declines_pick (h : s.length ≤ index) : Declines (pick index) s :=
  ⟨_, pick_of_length_le h, rfl⟩

theorem declines_roll (h : s.length ≤ index) : Declines (roll index) s :=
  ⟨_, roll_of_length_le h, rfl⟩

theorem Declines.times (hn : 0 < n) (h : Declines move s) : Declines (Stack.times move n) s := by
  obtain ⟨fault, hmove, hcode⟩ := h
  exact ⟨fault, times_of_error hn hmove, hcode⟩

/-- A move that succeeds wherever the stack is deep enough, and leaves it as deep, can be repeated. -/
theorem exists_times_of_lt (h : index < s.length)
    (hmove : ∀ s : Stack, index < s.length → ∃ t, move s = .ok () t ∧ s.length ≤ t.length) :
    ∃ t, times move n s = .ok () t := by
  induction n generalizing s with
  | zero => exact ⟨s, rfl⟩
  | succ n ih =>
    obtain ⟨t, hfirst, hlength⟩ := hmove s h
    rw [times_of_ok hfirst]
    exact ih (Nat.lt_of_lt_of_le h hlength)

theorem exists_times_roll (h : index < s.length) : ∃ t, times (roll index) n s = .ok () t := by
  refine exists_times_of_lt h fun s h => ?_
  obtain ⟨above, b, below, rfl, -, -, hroll⟩ := exists_pick_roll h
  exact ⟨_, hroll, by simp [Nat.add_assoc]⟩

theorem exists_times_pick (h : index < s.length) : ∃ t, times (pick index) n s = .ok () t := by
  refine exists_times_of_lt h fun s h => ?_
  obtain ⟨-, b, -, -, -, hpick, -⟩ := exists_pick_roll h
  exact ⟨_, hpick, Nat.le_succ _⟩

theorem not_declines_of_ok {x : StackM Unit} (h : x s = .ok () t) : ¬Declines x s := by
  rintro ⟨fault, herror, -⟩
  rw [h] at herror
  cases herror

end CoinScript.Stack
