import CoinScript.Proofs.Checked.Stack

/-!
# Operations on blocks

`rot`, `swap`, `copyOver` and `dup` on blocks of `n` elements repeat a move `n` times, and a move that is
repeated brings a whole block to the top (`times_roll`, `times_pick`).  Each operation is an instance, for
its own choice of what stands above the block.

What is left to see is that the depth is that of the block's last element.  It is counted in words, so
this holds as long as a word can count the elements of the blocks, `3 * n` or `2 * n` of them.  For a stack
that has these blocks it always can, since a word counts the elements of the stack.  Only on a stack that
is too small for the blocks it is an assumption, and there it is needed: a depth that has come out too
small may point into the stack after all, and then no element is found missing (`PastWords`).

Words and arrays of a processor that stops where a product is no word lead to the same outcomes as long as
the bound holds (`Simulates`).  Beyond it that processor crashes before the first move.
-/

namespace CoinScript

namespace Checked.Stack

/-- On words and arrays `x` does what `y` does.  It leaves at most `d` elements more than there were, and
memory is exhausted only where there is no room for that many. -/
def Simulates (d : Nat) (x : StackM Unit) (y : CoinScript.StackM Unit) : Prop :=
  ∀ k, Tracks ((k + d) * 24 ≤ addressSpace) (Sized k) (Sized (k + d)) Any x y

end Checked.Stack

namespace Stack

open Checked (wordSize)
open Checked.Stack (Simulates)

variable {a b c s : Stack} {n blocks : Nat}

/-! ## Blocks that are there -/

theorem rot_blocks (hn : 0 < n) (hword : 3 * n < wordSize) (ha : a.length = n) (hb : b.length = n)
    (hc : c.length = n) (rest : Stack) :
    rot n (c ++ b ++ a ++ rest) = .ok () (a ++ c ++ b ++ rest) := by
  have hdepth : lastDepth 3 n + 1 = (c ++ b).length + a.length := by
    rw [lastDepth_eq (by omega) hword, List.length_append]
    omega
  have hmoved := times_roll (c ++ b) a rest hdepth
  rwa [ha, ← List.append_assoc] at hmoved

theorem lastDepth_two (hn : 0 < n) (hword : 2 * n < wordSize) (ha : a.length = n)
    (hb : b.length = n) : lastDepth 2 n + 1 = b.length + a.length := by
  rw [lastDepth_eq (by omega) hword]
  omega

theorem swap_blocks (hn : 0 < n) (hword : 2 * n < wordSize) (ha : a.length = n) (hb : b.length = n)
    (rest : Stack) : swap n (b ++ a ++ rest) = .ok () (a ++ b ++ rest) := by
  have hmoved := times_roll b a rest (lastDepth_two hn hword ha hb)
  rwa [ha] at hmoved

theorem copyOver_blocks (hn : 0 < n) (hword : 2 * n < wordSize) (ha : a.length = n)
    (hb : b.length = n) (rest : Stack) :
    copyOver n (b ++ a ++ rest) = .ok () (a ++ b ++ a ++ rest) := by
  have hcopied := times_pick b a rest (lastDepth_two hn hword ha hb)
  rwa [ha] at hcopied

theorem dup_block (hn : 0 < n) (ha : a.length = n) (rest : Stack) :
    dup n (a ++ rest) = .ok () (a ++ a ++ rest) := by
  have hdepth : n - 1 + 1 = ([] : Stack).length + a.length := by
    rw [List.length_nil]
    omega
  have hcopied := times_pick [] a rest hdepth
  rwa [ha, List.nil_append, List.append_nil] at hcopied

/-! ## Blocks that are not -/

/-- The depth is outside a stack that has fewer elements than the blocks. -/
theorem length_le_lastDepth (hword : blocks * n < wordSize) (h : s.length < blocks * n) :
    s.length ≤ lastDepth blocks n := by
  rw [lastDepth_eq (Nat.zero_lt_of_lt h) hword]
  exact Nat.le_sub_one_of_lt h

theorem declines_rot (hn : 0 < n) (hword : 3 * n < wordSize) (h : s.length < 3 * n) :
    Declines (rot n) s :=
  (declines_roll (length_le_lastDepth hword h)).times hn

theorem declines_swap (hn : 0 < n) (hword : 2 * n < wordSize) (h : s.length < 2 * n) :
    Declines (swap n) s :=
  (declines_roll (length_le_lastDepth hword h)).times hn

theorem declines_copyOver (hn : 0 < n) (hword : 2 * n < wordSize) (h : s.length < 2 * n) :
    Declines (copyOver n) s :=
  (declines_pick (length_le_lastDepth hword h)).times hn

theorem declines_dup (hn : 0 < n) (h : s.length < n) : Declines (dup n) s :=
  (declines_pick (Nat.le_sub_one_of_lt h)).times hn

/-! ## The statement -/

/-- **The operations on blocks move whole blocks.**  The stacks are written top first, and blocks have
`n` elements.

* `rot` brings the third block to the top, if a word can count the elements of three blocks; on a stack
  of fewer elements it fails and changes nothing.
* `swap` brings the second block to the top, and `copyOver` a copy of it, if a word can count the elements
  of two blocks; on a stack of fewer elements they fail and change nothing.
* `dup` copies the first block; on a stack of fewer elements it fails and changes nothing.
* `pick` copies to the top the element at a depth, and `roll` moves it there past the elements above
  it, which keep their order.  Where the stack is not as deep both fail and change nothing.

The order within the blocks and everything below stay as they are.  On words and arrays all of them have
the same outcome, unless memory is exhausted. -/
theorem block_moves_exact (hn : 0 < n) :
    (3 * n < wordSize →
      (∀ a b c rest : Stack, a.length = n → b.length = n → c.length = n →
        rot n (c ++ b ++ a ++ rest) = .ok () (a ++ c ++ b ++ rest)) ∧
      (∀ s : Stack, s.length < 3 * n → Declines (rot n) s) ∧
      Simulates n (Checked.Stack.rot n) (rot n)) ∧
    (2 * n < wordSize →
      (∀ a b rest : Stack, a.length = n → b.length = n →
        swap n (b ++ a ++ rest) = .ok () (a ++ b ++ rest) ∧
        copyOver n (b ++ a ++ rest) = .ok () (a ++ b ++ a ++ rest)) ∧
      (∀ s : Stack, s.length < 2 * n → Declines (swap n) s ∧ Declines (copyOver n) s) ∧
      Simulates n (Checked.Stack.swap n) (swap n) ∧
      Simulates n (Checked.Stack.copyOver n) (copyOver n)) ∧
    ((∀ a rest : Stack, a.length = n → dup n (a ++ rest) = .ok () (a ++ a ++ rest)) ∧
      (∀ s : Stack, s.length < n → Declines (dup n) s) ∧
      Simulates n (Checked.Stack.dup n) (dup n)) ∧
    ∀ k : Nat,
      (∀ s : Stack, k < s.length → ∃ above b below, s = above ++ b :: below ∧ above.length = k ∧
        pick k s = .ok () (b :: s) ∧ roll k s = .ok () (b :: above ++ below)) ∧
      (∀ s : Stack, s.length ≤ k → Declines (pick k) s ∧ Declines (roll k) s) ∧
      Simulates 1 (Checked.Stack.pick k) (pick k) ∧
      Simulates 1 (Checked.Stack.roll k) (roll k) := by
  refine ⟨fun hword => ⟨?_, ?_, ?_⟩, fun hword => ⟨?_, ?_, ?_, ?_⟩, ⟨?_, ?_, ?_⟩,
    fun k => ⟨?_, ?_, ?_, ?_⟩⟩
  -- three blocks
  · intro a b c rest ha hb hc
    exact rot_blocks hn hword ha hb hc rest
  · intro s h
    exact declines_rot hn hword h
  · intro size
    exact Checked.Stack.tracks_rot hn hword id
  -- two blocks
  · intro a b rest ha hb
    exact ⟨swap_blocks hn hword ha hb rest, copyOver_blocks hn hword ha hb rest⟩
  · intro s h
    exact ⟨declines_swap hn hword h, declines_copyOver hn hword h⟩
  · intro size
    exact Checked.Stack.tracks_swap hn hword id
  · intro size
    exact Checked.Stack.tracks_copyOver hn hword id
  -- one block
  · intro a rest ha
    exact dup_block hn ha rest
  · intro s h
    exact declines_dup hn h
  · intro size
    exact Checked.Stack.tracks_dup hn id
  -- single elements
  · intro s h
    exact exists_pick_roll h
  · intro s h
    exact ⟨declines_pick h, declines_roll h⟩
  · intro size
    exact Checked.Stack.tracks_pick k id
  · intro size
    exact Checked.Stack.tracks_roll k id

/-- Blocks of two: on six elements and one below them, on five, and single elements of three. -/
theorem block_moves_of_pairs :
    rot 2 [[7], [6], [5], [4], [3], [2], [1]] = .ok () [[3], [2], [7], [6], [5], [4], [1]] ∧
    swap 2 [[7], [6], [5], [4], [3]] = .ok () [[5], [4], [7], [6], [3]] ∧
    copyOver 2 [[7], [6], [5], [4], [3]] = .ok () [[5], [4], [7], [6], [5], [4], [3]] ∧
    dup 2 [[7], [6], [5]] = .ok () [[7], [6], [7], [6], [5]] ∧
    Declines (rot 2) [[7], [6], [5], [4], [3]] ∧ Simulates 2 (Checked.Stack.rot 2) (rot 2) ∧
    (∃ above b below, ([[3], [2], [1]] : Stack) = above ++ b :: below ∧ above.length = 2 ∧
      pick 2 [[3], [2], [1]] = .ok () (b :: [[3], [2], [1]]) ∧
      roll 2 [[3], [2], [1]] = .ok () (b :: above ++ below)) ∧
    Declines (pick 3) [[3], [2], [1]] ∧ Declines (roll 3) [[3], [2], [1]] := by
  obtain ⟨hthree, htwo, ⟨hdup, -, -⟩, hdepth⟩ := block_moves_exact (n := 2) (by decide)
  obtain ⟨hrot, hfew, hsimulates⟩ := hthree (by decide)
  obtain ⟨hblocks, -, -⟩ := htwo (by decide)
  obtain ⟨hswapped, hcopied⟩ := hblocks [[5], [4]] [[7], [6]] [[3]] rfl rfl
  exact ⟨hrot [[3], [2]] [[5], [4]] [[7], [6]] [[1]] rfl rfl rfl, hswapped, hcopied,
    hdup [[7], [6]] [[5]] rfl, hfew [[7], [6], [5], [4], [3]] (by decide), hsimulates,
    (hdepth 2).1 [[3], [2], [1]] (by decide), (hdepth 3).2.1 [[3], [2], [1]] (by decide)⟩

/-! ## More elements than words can count -/

namespace PastWords

/-- The least number of elements of which a word cannot count three blocks. -/
def third : Nat := 0x5555555555555556

/-- One more than the least number of which it cannot count two. -/
def half : Nat := 0x8000000000000001

/-- **There the bounds are needed.**  Two elements are far fewer than the blocks have, but the depth comes
out as one.  So no element is found missing, and the two are moved or copied again and again.  Where words
are not let run over, all three crash and nothing is moved. -/
theorem blocks_not_missed :
    (third < wordSize ∧ ([[2], [1]] : Stack).length < 3 * third ∧
      (∃ t, rot third [[2], [1]] = .ok () t) ∧ ¬Declines (rot third) [[2], [1]] ∧
      Checked.Stack.rot third [[2], [1]] = .error (.crashed .aboveWord) [[2], [1]]) ∧
    half < wordSize ∧ ([[2], [1]] : Stack).length < 2 * half ∧
      (∃ t, swap half [[2], [1]] = .ok () t) ∧ ¬Declines (swap half) [[2], [1]] ∧
      Checked.Stack.swap half [[2], [1]] = .error (.crashed .aboveWord) [[2], [1]] ∧
      (∃ t, copyOver half [[2], [1]] = .ok () t) ∧ ¬Declines (copyOver half) [[2], [1]] ∧
      Checked.Stack.copyOver half [[2], [1]] = .error (.crashed .aboveWord) [[2], [1]] := by
  have hthird : wordSize ≤ 3 * third := by decide
  have hhalf : wordSize ≤ 2 * half := by decide
  obtain ⟨_, hrot⟩ : ∃ t, rot third [[2], [1]] = .ok () t := exists_times_roll (by decide)
  obtain ⟨_, hswap⟩ : ∃ t, swap half [[2], [1]] = .ok () t := exists_times_roll (by decide)
  obtain ⟨_, hover⟩ : ∃ t, copyOver half [[2], [1]] = .ok () t := exists_times_pick (by decide)
  exact ⟨⟨by decide, by decide, ⟨_, hrot⟩, not_declines_of_ok hrot,
      Checked.Stack.depth_bind_of_le hthird _ _⟩,
    by decide, by decide, ⟨_, hswap⟩, not_declines_of_ok hswap,
    Checked.Stack.depth_bind_of_le hhalf _ _, ⟨_, hover⟩, not_declines_of_ok hover,
    Checked.Stack.depth_bind_of_le hhalf _ _⟩

end PastWords

end Stack

end CoinScript
