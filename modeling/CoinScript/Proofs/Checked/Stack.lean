import CoinScript.Proofs.Checked.Number
import CoinScript.Proofs.Checked.Tracking
import CoinScript.Proofs.Machine.Blocks
import CoinScript.Proofs.Machine.ElementSize

/-!
# Stacks as arrays

The elements of a stack stand in an array from the bottom up, so that the element at a depth has to be
counted from the end: it is the one with index `size - depth - 1`.  The array grows with each push, and
each element is an array itself.

Every operation tracks the one of the program (`tracks_take` and so on).  The invariant `Sized k` says
that the stack has at most `k` elements and that the array and the elements are ones memory has room
for.  A push makes it `Sized (k + 1)`; that the room is still there is what the push asks for, and where
memory is ample it is there (`Room`).

The moves on blocks of `n` elements count with `n - 1`, `2 * n - 1` and `3 * n - 1`, so their blocks must
not be empty, and `2 * n` and `3 * n` must be words.  Where they are not, these moves crash before the
first of them (`depth_bind_of_le`), while those of the program go on with a depth that is too small.
-/

namespace CoinScript.Checked.Stack

open CoinScript (Stack)

/-- A computation on a stack, on words and arrays. -/
abbrev StackM (α : Type) := EStateM (Stop Fault) Stack α

variable {ample : Prop} {k n i : Nat} {α : Type} {b : Bytes} {s : Stack}

/-! ## The operations -/

/-- Puts an element on top. -/
def push (b : Bytes) : StackM Unit := do
  checked (allocate b.length 1)
  checked (allocate ((← get).length + 1) 24)
  modify (b :: ·)

/-- The index of the element at a depth. -/
def place (depth : Nat) (s : Stack) : Checked Fault Nat :=
  if s.length ≤ depth then refuse (.noElement depth s.length)
  else do sub (← sub s.length depth) 1

/-- The element at a depth. -/
def peek (depth : Nat) : StackM Bytes := do
  let s ← get
  checked (do index s.reverse (← place depth s))

/-- Takes out the element at a depth. -/
def take (depth : Nat) : StackM Bytes := do
  let s ← get
  let (b, left) ← checked (do remove s.reverse (← place depth s))
  set left.reverse
  return b

/-- Takes the top. -/
def pop : StackM Bytes := take 0

/-- Puts a number on top. -/
def pushNumber (n : Int) : StackM Unit := do
  push (← checked (encode n))

/-- Puts a truth value on top. -/
def pushTruth (v : Bool) : StackM Unit := push (Number.ofTruth v)

/-- Reads an element as an operand. -/
def asNumber (format : Number.Format) (b : Bytes) : StackM Int :=
  checked (recast .number (decode format b))

/-- Takes the top as an operand. -/
def popNumber (format : Number.Format) : StackM Int := do
  asNumber format (← pop)

/-- Takes the top as a truth value. -/
def popTruth : StackM Bool := do
  checked (truth (← pop))

/-- The operand at a depth. -/
def peekNumber (format : Number.Format) (depth : Nat) : StackM Int := do
  asNumber format (← peek depth)

/-- The truth value at a depth. -/
def peekTruth (depth : Nat) : StackM Bool := do
  checked (truth (← peek depth))

/-- `n` elements from the top, the topmost first. -/
def popMany : (n : Nat) → StackM (List Bytes)
  | 0 => return []
  | n + 1 => do
    let b ← pop
    return b :: (← popMany n)

/-- The same move, `n` times. -/
def times (move : StackM Unit) : (n : Nat) → StackM Unit
  | 0 => return ()
  | n + 1 => do
    move
    times move n

/-- Puts a copy of the element at a depth on top. -/
def pick (depth : Nat) : StackM Unit := do
  push (← peek depth)

/-- Moves the element at a depth to the top. -/
def roll (depth : Nat) : StackM Unit := do
  push (← take depth)

/-- Removes the element at a depth. -/
def nip (depth : Nat) : StackM Unit := do
  let _ ← take depth

/-- Removes `n` elements from the top. -/
def drop (n : Nat) : StackM Unit :=
  times (do let _ ← pop) n

/-- Copies the topmost block of `n`. -/
def dup (n : Nat) : StackM Unit := times (do pick (← checked (sub n 1))) n

/-- Copies the second block of `n` to the top. -/
def copyOver (n : Nat) : StackM Unit := do
  let depth ← checked (do sub (← mul 2 n) 1)
  times (pick depth) n

/-- Exchanges the two topmost blocks of `n`. -/
def swap (n : Nat) : StackM Unit := do
  let depth ← checked (do sub (← mul 2 n) 1)
  times (roll depth) n

/-- Moves the third block of `n` to the top. -/
def rot (n : Nat) : StackM Unit := do
  let depth ← checked (do sub (← mul 3 n) 1)
  times (roll depth) n

/-- Puts a copy of the top below the second element. -/
def tuck : StackM Unit := do
  let top ← pop
  let second ← pop
  push top
  push second
  push top

/-! ## Room -/

/-- Memory has room for the byte string. -/
def InMemory (b : Bytes) : Prop := b.length ≤ addressSpace

theorem InMemory.lt_wordSize (h : InMemory b) : b.length < wordSize :=
  Nat.lt_of_le_of_lt h (by decide)

/-- Memory has room for the array and for the elements. -/
structure Stored (s : Stack) : Prop where
  room : s.length * 24 ≤ addressSpace
  within : Stack.Within addressSpace s

theorem Stored.nil : Stored [] := ⟨Nat.zero_le _, fun _ h => absurd h List.not_mem_nil⟩

/-- Some of the elements take no more room than all of them. -/
theorem Stored.of_sublist {t : Stack} (h : Stored s) (hsub : List.Sublist t s) : Stored t :=
  ⟨Nat.le_trans (Nat.mul_le_mul_right 24 hsub.length_le) h.room, fun b hb =>
    h.within b (hsub.subset hb)⟩

/-- Ample memory has room for an array of so many elements. -/
def Room (ample : Prop) (k : Nat) : Prop := ample → k * 24 ≤ addressSpace

theorem Room.mono (h : Room ample k) (hle : n ≤ k) : Room ample n := fun hample =>
  Nat.le_trans (Nat.mul_le_mul_right 24 hle) (h hample)

/-- There are at most `k` elements, and memory has room for all that there is. -/
structure Sized (k : Nat) (s : Stack) : Prop extends Stored s where
  depth : s.length ≤ k

/-! ## They do what the program does -/

theorem place_of_length_le (h : s.length ≤ i) :
    place i s = refuse (.noElement i s.length) := if_pos h

theorem place_append (above : Stack) (b : Bytes) (below : Stack) :
    place above.length (above ++ b :: below) = .ok below.length := by
  have hlength : (above ++ b :: below).length = above.length + (below.length + 1) := by simp
  rw [place, hlength, if_neg (by omega), sub_of_le (Nat.le_add_right ..), ok_bind,
    sub_of_le (by omega)]
  exact congrArg Except.ok (by omega)

theorem getElem?_reverse (above : Stack) (b : Bytes) (below : Stack) :
    (above ++ b :: below).reverse[below.length]? = some b := by
  simp

theorem eraseIdx_reverse (above : Stack) (b : Bytes) (below : Stack) :
    ((above ++ b :: below).reverse.eraseIdx below.length).reverse = above ++ below := by
  simp [List.eraseIdx_append_of_length_le]

theorem tracks_push (hk : Room ample (k + 1)) (hb : ample → InMemory b) :
    Tracks ample (Sized k) (Sized (k + 1)) Any (push b) (CoinScript.Stack.push b) := by
  refine .of_allocate (fun hample => ?_) fun hb => .of_get fun s hs => .of_allocate (fun hample => ?_)
    fun hroom => tracks_modify ?_
  · rw [Nat.mul_one]
    exact hb hample
  · exact Nat.le_trans (Nat.mul_le_mul_right 24 (Nat.succ_le_succ hs.depth)) (hk hample)
  · rintro _ rfl
    exact ⟨⟨by simpa using hroom, List.forall_mem_cons.mpr ⟨by simpa using hb, hs.within⟩⟩,
      by simpa using hs.depth⟩

theorem tracks_peek (i : Nat) :
    Tracks ample (Sized k) (Sized k) InMemory (peek i) (CoinScript.Stack.peek i) := by
  refine .of_get fun _ hs => ?_
  rintro s rfl
  unfold CoinScript.Stack.peek
  cases hb : s[i]? with
  | none =>
    rw [place_of_length_le (List.getElem?_eq_none_iff.mp hb)]
    exact .refused _ s
  | some b =>
    obtain ⟨above, below, rfl, rfl⟩ := CoinScript.Stack.exists_above hb
    rw [place_append, ok_bind, index_of_getElem? (getElem?_reverse above b below)]
    exact .ok (hs.within b (by simp)) hs

theorem tracks_take (i : Nat) :
    Tracks ample (Sized k) (Sized k) InMemory (take i) (CoinScript.Stack.take i) := by
  refine .of_get fun _ hs => ?_
  rintro s rfl
  unfold CoinScript.Stack.take
  cases hb : s[i]? with
  | none =>
    rw [place_of_length_le (List.getElem?_eq_none_iff.mp hb)]
    exact .refused _ s
  | some b =>
    obtain ⟨above, below, rfl, rfl⟩ := CoinScript.Stack.exists_above hb
    have herased := eraseIdx_reverse above b below
    have hleft : (above ++ b :: below).eraseIdx above.length = above ++ below := by
      simp [List.eraseIdx_append_of_length_le]
    rw [place_append, ok_bind, remove_of_getElem? (getElem?_reverse above b below), checked_ok_bind,
      hleft]
    dsimp only
    rw [herased]
    have hsub : List.Sublist (above ++ below) (above ++ b :: below) :=
      List.Sublist.append_left (List.sublist_cons_self b below) above
    exact .ok (hs.within b (by simp))
      ⟨hs.toStored.of_sublist hsub, Nat.le_trans hsub.length_le hs.depth⟩

theorem tracks_pop : Tracks ample (Sized k) (Sized k) InMemory pop CoinScript.Stack.pop :=
  tracks_take 0

theorem tracks_pushNumber {v : Int} (hk : Room ample (k + 1))
    (hv : ample → InMemory (Number.encode v)) :
    Tracks ample (Sized k) (Sized (k + 1)) Any (pushNumber v) (CoinScript.Stack.pushNumber v) :=
  .of_ok (encode_eq v) (tracks_push hk hv)

theorem tracks_pushTruth (v : Bool) (hk : Room ample (k + 1)) :
    Tracks ample (Sized k) (Sized (k + 1)) Any (pushTruth v) (CoinScript.Stack.pushTruth v) :=
  tracks_push hk fun _ => Nat.le_trans (Number.length_ofTruth_le v) (by decide)

/-- An operand fits the greatest length that operands may have. -/
theorem tracks_asNumber (format : Number.Format) (b : Bytes) :
    Tracks ample (Sized k) (Sized k) (Number.Fits format.maxLength) (asNumber format b)
      (CoinScript.Stack.asNumber format b) := by
  intro s hs
  unfold asNumber CoinScript.Stack.asNumber
  rw [decode_agrees]
  cases hdecode : Number.decode format b with
  | ok v =>
    obtain ⟨hlength, rfl⟩ := Number.decode_eq_ok hdecode
    exact .ok ((Number.fits_value b).mono hlength) hs
  | error cause => exact .refused _ s

theorem tracks_popNumber (format : Number.Format) :
    Tracks ample (Sized k) (Sized k) (Number.Fits format.maxLength) (popNumber format)
      (CoinScript.Stack.popNumber format) :=
  tracks_pop.bind fun b _ => tracks_asNumber format b

theorem tracks_truth (b : Bytes) :
    Tracks ample (Sized k) (Sized k) Any (checked (truth b) : StackM Bool)
      (return Number.truth b) := by
  rw [truth_eq]
  exact tracks_pure trivial

theorem tracks_popTruth :
    Tracks ample (Sized k) (Sized k) Any popTruth CoinScript.Stack.popTruth :=
  tracks_pop.bind fun b _ => tracks_truth b

theorem tracks_peekNumber (format : Number.Format) (i : Nat) :
    Tracks ample (Sized k) (Sized k) (Number.Fits format.maxLength) (peekNumber format i)
      (CoinScript.Stack.peekNumber format i) :=
  (tracks_peek i).bind fun b _ => tracks_asNumber format b

theorem tracks_peekTruth (i : Nat) :
    Tracks ample (Sized k) (Sized k) Any (peekTruth i) (CoinScript.Stack.peekTruth i) :=
  (tracks_peek i).bind fun b _ => tracks_truth b

theorem tracks_popMany (n : Nat) :
    Tracks ample (Sized k) (Sized k) (fun bs => bs.length = n ∧ ∀ b ∈ bs, InMemory b) (popMany n)
      (CoinScript.Stack.popMany n) := by
  induction n with
  | zero => exact tracks_pure ⟨rfl, fun _ hb => absurd hb List.not_mem_nil⟩
  | succ n ih =>
    refine tracks_pop.bind fun b hb => ih.bind fun bs hbs => tracks_pure ⟨?_, ?_⟩
    · rw [List.length_cons, hbs.1]
    · exact List.forall_mem_cons.mpr ⟨hb, hbs.2⟩

theorem tracks_pick (i : Nat) (hk : Room ample (k + 1)) :
    Tracks ample (Sized k) (Sized (k + 1)) Any (pick i) (CoinScript.Stack.pick i) :=
  (tracks_peek i).bind fun _ hb => tracks_push hk fun _ => hb

theorem tracks_roll (i : Nat) (hk : Room ample (k + 1)) :
    Tracks ample (Sized k) (Sized (k + 1)) Any (roll i) (CoinScript.Stack.roll i) :=
  (tracks_take i).bind fun _ hb => tracks_push hk fun _ => hb

theorem tracks_nip (i : Nat) :
    Tracks ample (Sized k) (Sized k) Any (nip i) (CoinScript.Stack.nip i) :=
  (tracks_take i).bind fun _ _ => tracks_pure trivial

/-- A move that adds at most `d` elements, `n` times. -/
theorem tracks_times {d : Nat} {move : StackM Unit} {move' : CoinScript.StackM Unit} (n k : Nat)
    (h : ∀ j, j + d ≤ k + n * d → Tracks ample (Sized j) (Sized (j + d)) Any move move') :
    Tracks ample (Sized k) (Sized (k + n * d)) Any (times move n)
      (CoinScript.Stack.times move' n) := by
  induction n generalizing k with
  | zero =>
    rw [Nat.zero_mul]
    exact tracks_pure trivial
  | succ n ih =>
    have hsum : k + (n + 1) * d = k + d + n * d := by
      rw [Nat.add_mul, Nat.one_mul]
      omega
    rw [hsum] at h ⊢
    exact (h k (Nat.le_add_right ..)).bind fun _ _ => ih (k + d) h

/-- A move that adds at most one element, `n` times. -/
theorem tracks_times_one {move : StackM Unit} {move' : CoinScript.StackM Unit}
    (hk : Room ample (k + n))
    (h : ∀ j, Room ample (j + 1) → Tracks ample (Sized j) (Sized (j + 1)) Any move move') :
    Tracks ample (Sized k) (Sized (k + n)) Any (times move n) (CoinScript.Stack.times move' n) := by
  have htimes := tracks_times (d := 1) n k fun j hj => h j (hk.mono (by omega))
  rwa [Nat.mul_one] at htimes

theorem tracks_drop (n : Nat) :
    Tracks ample (Sized k) (Sized k) Any (drop n) (CoinScript.Stack.drop n) :=
  tracks_times (d := 0) n k fun _ _ => tracks_pop.bind fun _ _ => tracks_pure trivial

theorem tracks_dup (hn : 0 < n) (hk : Room ample (k + n)) :
    Tracks ample (Sized k) (Sized (k + n)) Any (dup n) (CoinScript.Stack.dup n) :=
  tracks_times_one hk fun _ hj => .of_ok (sub_of_le hn) (tracks_pick (n - 1) hj)

/-- The depth that the blocks are counted to. -/
theorem depth_eq {blocks : Nat} (hpos : 0 < blocks * n) (hword : blocks * n < wordSize) :
    (do sub (← mul blocks n) 1 : Checked Fault Nat) = .ok (CoinScript.Stack.lastDepth blocks n) := by
  rw [mul_of_lt hword, ok_bind, sub_of_le hpos, CoinScript.Stack.lastDepth_eq hpos hword]

/-- Where a word cannot count the blocks there is no depth, and nothing is moved. -/
theorem depth_bind_of_le {blocks : Nat} (h : wordSize ≤ blocks * n) (moves : Nat → StackM Unit)
    (s : Stack) :
    (checked (do sub (← mul blocks n) 1) >>= moves) s = .error (.crashed .aboveWord) s := by
  rw [mul, if_neg (Nat.not_lt.mpr h)]
  rfl

theorem tracks_copyOver (hn : 0 < n) (hword : 2 * n < wordSize) (hk : Room ample (k + n)) :
    Tracks ample (Sized k) (Sized (k + n)) Any (copyOver n) (CoinScript.Stack.copyOver n) :=
  .of_ok (depth_eq (by omega) hword) (tracks_times_one hk fun _ hj => tracks_pick _ hj)

theorem tracks_swap (hn : 0 < n) (hword : 2 * n < wordSize) (hk : Room ample (k + n)) :
    Tracks ample (Sized k) (Sized (k + n)) Any (swap n) (CoinScript.Stack.swap n) :=
  .of_ok (depth_eq (by omega) hword) (tracks_times_one hk fun _ hj => tracks_roll _ hj)

theorem tracks_rot (hn : 0 < n) (hword : 3 * n < wordSize) (hk : Room ample (k + n)) :
    Tracks ample (Sized k) (Sized (k + n)) Any (rot n) (CoinScript.Stack.rot n) :=
  .of_ok (depth_eq (by omega) hword) (tracks_times_one hk fun _ hj => tracks_roll _ hj)

theorem tracks_tuck (hk : Room ample (k + 3)) :
    Tracks ample (Sized k) (Sized (k + 3)) Any tuck CoinScript.Stack.tuck := by
  refine tracks_pop.bind fun top htop => tracks_pop.bind fun second hsecond => ?_
  refine (tracks_push (hk.mono (by omega)) fun _ => htop).bind fun _ _ => ?_
  refine (tracks_push (hk.mono (by omega)) fun _ => hsecond).bind fun _ _ => ?_
  exact tracks_push hk fun _ => htop

end CoinScript.Checked.Stack
