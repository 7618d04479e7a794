import CoinScript.Proofs.Machine.Blocks
import CoinScript.Proofs.Machine.Depth
import CoinScript.Proofs.Machine.Multisig
import CoinScript.Proofs.Machine.Skipping
import CoinScript.Proofs.Number.Length
import CoinScript.Spend.Verify

/-!
# What the arities protect from

Before an operation is executed the depth of the stack is compared with its arity.  For most
operations that is all that can go wrong with the depth: they draw on their arity
(`Run.draws_perform`), so that none of them comes to the end of the stack on its way.  The others
have to find out by themselves how much they need: `PICK` and `ROLL` look at an index, the check of
several signatures at two counts, a check of a lock time at its flag, and `FROMALTSTACK` takes its
element from the alt stack.

`Run.Underflows x m` says that a computation stops on a machine for want of an element.  For the
operations that look for themselves it is followed through the program, to the condition on the
stack and the rules under which it happens (`Run.underflows_perform_iff`, with the conditions in
`Run.Overdraws`).  In a sequence the first part may underflow, or it succeeds and the second does
(`Run.underflows_bind_iff`), and wherever one of the parts is known to draw on no more than is
there, it drops out.
-/

namespace CoinScript

/-- The counts of a check of several signatures ask for more elements than there are, where `a` is
on top of `rest`.  The first counts the keys, which lie below it, and the second the signatures; the
check needs the second count as well, and one element below the signatures.  Neither count may be
too high for another rule. -/
def Rules.Overcounts (r : Rules) (operations : Nat) (a : Bytes) (rest : Stack) : Prop :=
  ∃ n, r.ReadsCount a n ∧ n ≤ r.limits.maxKeysPerMultisig ∧ operations + n ≤ r.limits.maxOps ∧
    (rest.length ≤ n ∨ ∃ b below k, List.drop n rest = b :: below ∧ r.ReadsCount b k ∧ k ≤ n ∧
      below.length ≤ k)

namespace Run

variable {α β : Type} {r : Rules} {m : Machine} {a : Bytes} {rest : Stack}

/-- On this machine the computation stops with an underflow. -/
def Underflows (x : Run α) (m : Machine) : Prop :=
  ∃ fault after, x m = .error fault after ∧ fault.Underflow

theorem underflows_bind_iff {x : Run α} {f : α → Run β} :
    Underflows (x >>= f) m ↔
      Underflows x m ∨ ∃ a m', x m = .ok a m' ∧ Underflows (f a) m' := by
  constructor
  · rintro ⟨fault, after, h, hfault⟩
    rcases bind_eq_error h with hx | ⟨a, m', hx, hf⟩
    · exact .inl ⟨fault, after, hx, hfault⟩
    · exact .inr ⟨a, m', hx, fault, after, hf, hfault⟩
  · rintro (⟨fault, after, hx, hfault⟩ | ⟨a, m', hx, fault, after, hf, hfault⟩)
    · exact ⟨fault, after, bind_of_error hx, hfault⟩
    · exact ⟨fault, after, (bind_of_ok hx).trans hf, hfault⟩

theorem not_underflows_of_draws {x : Run α} {k l : Nat} (h : Draws k l x)
    (hk : k ≤ m.main.length) : ¬Underflows x m := by
  rintro ⟨fault, after, hx, hfault⟩
  have hdraws := h m hk
  rw [hx] at hdraws
  exact hdraws hfault

/-- A first part that cannot underflow. -/
theorem underflows_bind_of_draws {x : Run α} {f : α → Run β} {k l : Nat} (hx : Draws k l x)
    (hk : k ≤ m.main.length) :
    Underflows (x >>= f) m ↔ ∃ a m', x m = .ok a m' ∧ Underflows (f a) m' := by
  rw [underflows_bind_iff, or_iff_right (not_underflows_of_draws hx hk)]

theorem underflows_bind_of_ok {x : Run α} {f : α → Run β} {b : α} {m' : Machine}
    (hx : x m = .ok b m') : Underflows (x >>= f) m ↔ Underflows (f b) m' := by
  unfold Underflows
  rw [bind_of_ok hx]

theorem underflows_require_bind_iff {c : Bool} {fault : Fault} {f : Unit → Run β} :
    Underflows (require c fault >>= f) m ↔
      c = false ∧ fault.Underflow ∨ c = true ∧ Underflows (f ()) m := by
  cases c with
  | true =>
    unfold Underflows
    rw [require_bind_of_true rfl]
    simp
  | false =>
    have hstop : (require false fault >>= f) m = .error fault m := rfl
    unfold Underflows
    rw [hstop]
    simp

theorem underflows_onMain {x : StackM α} {fault : Fault} {s : Stack}
    (h : x m.main = .error fault s) (hfault : fault.Underflow) : Underflows (onMain x) m := by
  refine ⟨fault, { m with main := s }, ?_, hfault⟩
  unfold onMain
  rw [h]

/-- An operand that is there. -/
theorem underflows_popNumber_bind_iff {f : Int → Run β} (hmain : m.main = a :: rest) :
    Underflows (popNumber r >>= f) m ↔ ∃ n, Number.decode r.numberFormat a = .ok n ∧
      Underflows (f n) { m with main := rest } := by
  have hdepth : 1 ≤ m.main.length := by
    rw [hmain]
    exact Nat.succ_pos _
  rw [underflows_bind_of_draws draws_popNumber hdepth]
  constructor
  · rintro ⟨n, m', hpop, h⟩
    obtain ⟨a', rest', hmain', hn, rfl⟩ := popNumber_eq_ok hpop
    rw [hmain] at hmain'
    cases hmain'
    exact ⟨n, hn, h⟩
  · rintro ⟨n, hn, h⟩
    exact ⟨n, _, popNumber_of_main hmain hn, h⟩

/-! ## Indices -/

theorem underflows_pick_iff {index : Nat} :
    Underflows (onMain (Stack.pick index)) m ↔ m.main.length ≤ index := by
  constructor
  · intro h
    by_contra hlt
    exact not_underflows_of_draws (draws_onMain (Stack.draws_pick (Nat.not_le.mp hlt)))
      (Nat.le_refl _) h
  · exact fun h => underflows_onMain (Stack.pick_of_length_le h) trivial

theorem underflows_roll_iff {index : Nat} :
    Underflows (onMain (Stack.roll index)) m ↔ m.main.length ≤ index := by
  constructor
  · intro h
    by_contra hlt
    exact not_underflows_of_draws (draws_onMain (Stack.draws_roll (Nat.le_refl index)))
      (Nat.not_le.mp hlt) h
  · exact fun h => underflows_onMain (Stack.roll_of_length_le h) trivial

/-- An index must not be negative, and the element has to be there. -/
theorem underflows_index_iff {move : Nat → Run Unit}
    (hmove : ∀ index m, Underflows (move index) m ↔ m.main.length ≤ index)
    (hmain : m.main = a :: rest) :
    Underflows (popIndex r >>= move) m ↔ ∃ n, Number.decode r.numberFormat a = .ok n ∧
      (n < 0 ∨ (rest.length : Int) ≤ Number.clamp 64 n) := by
  unfold popIndex
  rw [bind_assoc, underflows_popNumber_bind_iff hmain]
  refine exists_congr fun n => and_congr_right fun _ => ?_
  rw [bind_assoc, underflows_require_bind_iff, pure_bind, hmove]
  rcases Int.lt_or_le n 0 with hneg | hnonneg
  · have hrefused : decide (0 ≤ n) = false := decide_eq_false (Int.not_le.mpr hneg)
    exact iff_of_true (.inl ⟨hrefused, trivial⟩) (.inl hneg)
  · rw [decide_eq_true hnonneg, Int.le_toNat (Number.clamp_nonneg hnonneg)]
    simp [Int.not_lt.mpr hnonneg]

/-! ## Counts -/

theorem readsCount_iff {n : Nat} : r.ReadsCount a n ↔
    ∃ v, Number.decode r.numberFormat a = .ok v ∧ Number.clamp 64 v = n := by
  unfold Rules.ReadsCount
  cases Number.decode r.numberFormat a with
  | ok v => simp [Except.map]
  | error cause => simp [Except.map]

theorem popMany_of_length_lt {s : Stack} {n : Nat} (h : s.length < n) :
    ∃ fault s', Stack.popMany n s = .error fault s' ∧ fault.Underflow := by
  induction n generalizing s with
  | zero => exact absurd h (Nat.not_lt_zero _)
  | succ n ih =>
    cases s with
    | nil => exact ⟨_, _, rfl, trivial⟩
    | cons b s =>
      obtain ⟨fault, s', hrest, hfault⟩ := ih (Nat.lt_of_succ_lt_succ h)
      have htop : Stack.pop (b :: s) = .ok b s := rfl
      refine ⟨fault, s', ?_, hfault⟩
      rw [Stack.popMany, bind_of_ok htop, bind_of_error hrest]

/-- Elements that are counted, and what comes after them. -/
theorem underflows_popMany_bind_iff {n : Nat} {f : List Bytes → Run β} :
    Underflows (onMain (Stack.popMany n) >>= f) m ↔ m.main.length < n ∨
      n ≤ m.main.length ∧
        Underflows (f (List.take n m.main)) { m with main := List.drop n m.main } := by
  rcases Nat.lt_or_ge m.main.length n with hlt | hle
  · obtain ⟨fault, s, hfew, hfault⟩ := popMany_of_length_lt hlt
    exact iff_of_true (underflows_bind_iff.mpr (.inl (underflows_onMain hfew hfault))) (.inl hlt)
  · have htake := popMany_append (List.take n m.main) (List.drop n m.main)
    rw [List.length_take, Nat.min_eq_left hle, List.take_append_drop] at htake
    have hpop : onMain (Stack.popMany n) m =
        .ok (List.take n m.main) { m with main := List.drop n m.main } := by
      unfold onMain
      rw [htake]
    rw [underflows_bind_of_ok hpop]
    simp [hle, Nat.not_lt.mpr hle]

section

variable {limit : Nat} {fault : Int → Fault} {before : Nat → Run Unit} {f : List Bytes → Run β}

theorem underflows_popCounted_of_nil (h : m.main = []) :
    Underflows (popCounted r limit fault before >>= f) m := by
  have hpop : Stack.popNumber r.numberFormat m.main = .error (.noElement 0 0) [] := by
    rw [h]
    rfl
  exact underflows_bind_iff.mpr
    (.inl (underflows_bind_iff.mpr (.inl (underflows_onMain hpop trivial))))

/-- A count, the elements that it counts, and what comes after them. -/
theorem underflows_popCounted_bind_iff (hfault : ∀ n, ¬(fault n).Underflow)
    (hbefore : ∀ n, Draws 0 0 (before n))
    (hkeeps : ∀ n m m', before n m = .ok () m' → m'.main = m.main) (hmain : m.main = a :: rest) :
    Underflows (popCounted r limit fault before >>= f) m ↔ ∃ n m', r.ReadsCount a n ∧ n ≤ limit ∧
      before n { m with main := rest } = .ok () m' ∧ (rest.length < n ∨ n ≤ rest.length ∧
        Underflows (f (List.take n rest)) { m' with main := List.drop n rest }) := by
  unfold popCounted
  rw [bind_assoc, underflows_popNumber_bind_iff hmain]
  simp only [bind_assoc]
  constructor
  · rintro ⟨v, hv, h⟩
    rw [underflows_require_bind_iff] at h
    rcases h with ⟨-, h⟩ | ⟨hrange, h⟩
    · exact absurd h (hfault _)
    obtain ⟨hnonneg, hle⟩ := of_decide_eq_true hrange
    obtain ⟨n, hn⟩ := Int.eq_ofNat_of_zero_le hnonneg
    rw [underflows_bind_of_draws (hbefore _) (Nat.zero_le _)] at h
    obtain ⟨u, m', hm', h⟩ := h
    rw [underflows_popMany_bind_iff, hkeeps _ _ _ hm'] at h
    rw [hn, Int.toNat_natCast] at hm' h
    exact ⟨n, m', readsCount_iff.mpr ⟨v, hv, hn⟩, by omega, hm', h⟩
  · rintro ⟨n, m', hread, hle, hm', h⟩
    obtain ⟨v, hv, hn⟩ := readsCount_iff.mp hread
    refine ⟨v, hv, ?_⟩
    rw [underflows_require_bind_iff]
    refine .inr ⟨decide_eq_true (by omega), ?_⟩
    rw [hn, Int.toNat_natCast, underflows_bind_of_ok hm', underflows_popMany_bind_iff,
      hkeeps _ _ _ hm']
    exact h

end

/-- A second part that never underflows. -/
theorem underflows_bind_of_second {x : Run α} {f : α → Run β} {l : Nat}
    (hf : ∀ a, Draws 0 l (f a)) : Underflows (x >>= f) m ↔ Underflows x m := by
  rw [underflows_bind_iff]
  refine or_iff_left ?_
  rintro ⟨a, m', -, h⟩
  exact not_underflows_of_draws (hf a) (Nat.zero_le _) h

theorem underflows_pop_iff : Underflows pop m ↔ m.main = [] := by
  constructor
  · intro h
    by_contra hne
    exact not_underflows_of_draws draws_pop (List.length_pos_iff.mpr hne) h
  · intro h
    have hpop : Stack.pop m.main = .error (.noElement 0 0) [] := by
      rw [h]
      rfl
    exact underflows_onMain hpop trivial

/-- The second count, the signatures, and the element that is taken in addition. -/
theorem underflows_signatures_iff {limit l : Nat} {b : Bytes} {below : List Bytes}
    {g : List Bytes → Bytes → Run β} (hg : ∀ sigs dummy, Draws 0 l (g sigs dummy))
    (hmain : m.main = b :: below) :
    Underflows (popCounted r limit (fun n => .signatureCount n limit) (fun _ => return ()) >>=
        fun sigs => pop >>= g sigs) m ↔
      ∃ k, r.ReadsCount b k ∧ k ≤ limit ∧ below.length ≤ k := by
  have hpure : ∀ _ : Nat, Draws 0 0 (pure () : Run Unit) := fun _ => drawsOn_pure () (Nat.le_refl 0)
  rw [underflows_popCounted_bind_iff (fun _ => id) hpure (fun _ _ _ h => by cases h; rfl) hmain]
  constructor
  · rintro ⟨k, m', hread, hle, -, h⟩
    refine ⟨k, hread, hle, ?_⟩
    rcases h with hlt | ⟨-, h⟩
    · exact Nat.le_of_lt hlt
    · rw [underflows_bind_of_second (hg _), underflows_pop_iff] at h
      exact List.drop_eq_nil_iff.mp h
  · rintro ⟨k, hread, hle, hfew⟩
    refine ⟨k, _, hread, hle, rfl, ?_⟩
    rcases Nat.lt_or_ge below.length k with hlt | hge
    · exact .inl hlt
    · refine .inr ⟨hge, ?_⟩
      rw [underflows_bind_of_second (hg _), underflows_pop_iff]
      exact List.drop_eq_nil_of_le hfew

/-- The operands of a check of several signatures. -/
theorem underflows_operands_iff {l : Nat} {g : List Bytes → List Bytes → Bytes → Run β}
    (hg : ∀ keys sigs dummy, Draws 0 l (g keys sigs dummy)) (hmain : m.main = a :: rest) :
    Underflows (popCounted r r.limits.maxKeysPerMultisig
        (fun n => .keyCount n r.limits.maxKeysPerMultisig) (countOperations r) >>= fun keys =>
      popCounted r keys.length (fun n => .signatureCount n keys.length) (fun _ => return ()) >>=
        fun sigs => pop >>= g keys sigs) m ↔
      r.Overcounts m.operations a rest := by
  rw [underflows_popCounted_bind_iff (fun _ => id) draws_countOperations
    (fun _ _ _ => main_of_countOperations) hmain]
  refine exists_congr fun n => ?_
  constructor
  · rintro ⟨m', hread, hle, hcount, h⟩
    refine ⟨hread, hle, (countOperations_eq_ok hcount).1, ?_⟩
    rcases h with hlt | ⟨hge, h⟩
    · exact .inl (Nat.le_of_lt hlt)
    -- below the keys the second count has to be there
    cases hdrop : List.drop n rest with
    | nil => exact .inl (List.drop_eq_nil_iff.mp hdrop)
    | cons b below =>
      rw [underflows_signatures_iff (hg _) hdrop, List.length_take, Nat.min_eq_left hge] at h
      obtain ⟨k, hk⟩ := h
      exact .inr ⟨b, below, k, rfl, hk⟩
  · rintro ⟨hread, hle, hops, h⟩
    refine ⟨_, hread, hle, countOperations_of_le hops, ?_⟩
    rcases Nat.lt_or_ge rest.length n with hlt | hge
    · exact .inl hlt
    refine .inr ⟨hge, ?_⟩
    rcases h with hfew | ⟨b, below, k, hdrop, hk⟩
    · exact underflows_popCounted_of_nil (List.drop_eq_nil_of_le hfew)
    · rw [underflows_signatures_iff (hg _) hdrop, List.length_take, Nat.min_eq_left hge]
      exact ⟨k, hk⟩

/-- **When a check of several signatures underflows.**  The keys and the other count are not there,
or the signatures and the element that is taken in addition. -/
theorem underflows_checkMultisig_iff (script : List Instruction) (offset : Nat) (op : Opcode)
    (checked : Bool) (hmain : m.main = a :: rest) :
    Underflows (crypto r script offset op (.checkMultisig checked)) m ↔
      r.context ≠ none ∧ r.Overcounts m.operations a rest := by
  show Underflows (checkMultiple r script op >>= fun _ => if checked then verifyTop op else pure ())
    m ↔ _
  unfold checkMultiple
  simp only [bind_assoc]
  cases hc : r.context with
  | none =>
    refine iff_of_false ?_ fun h => h.1 rfl
    rw [underflows_bind_of_draws (draws_requireContext op) (Nat.zero_le _)]
    rintro ⟨c, m', h, -⟩
    rw [(requireContext_eq_ok h).1] at hc
    cases hc
  | some c =>
    rw [underflows_bind_of_ok (requireContext_eq hc op m),
      underflows_operands_iff (l := 0) ?_ hmain]
    · exact (and_iff_right (Option.some_ne_none c)).symm
    · -- what follows the operands takes only what it has put there itself
      intro keys sigs dummy
      exact (draws_require _ id).bind fun _ => (draws_currentPart script).bind fun part =>
        (draws_matchKeys (draws_checkPair c part _) keys sigs).bind fun _ =>
        (draws_require _ id).bind fun _ => (draws_pushTruth _).bind fun _ =>
        draws_verify_ite checked op

/-! ## Lock times -/

/-- A check of a lock time needs its operand only if it checks. -/
theorem underflows_lockTime_iff (op : Opcode) (x : LockTimeOp) :
    Underflows (lockTime r op x) m ↔
      r.flags.has (lockTimeFlag x) = true ∧ r.context ≠ none ∧ m.main = [] := by
  constructor
  · intro h
    have hempty : m.main = [] := by
      by_contra hne
      exact not_underflows_of_draws (draws_lockTime op x) (List.length_pos_iff.mpr hne) h
    cases hflag : r.flags.has (lockTimeFlag x) with
    | false =>
      unfold lockTime at h
      rw [hflag] at h
      exact absurd h (not_underflows_of_draws (draws_nop op true) (Nat.zero_le _))
    | true =>
      refine ⟨rfl, fun hnone => ?_, hempty⟩
      unfold lockTime Rules.requireContext at h
      rw [hflag, hnone] at h
      obtain ⟨_, _, hstop, hfault⟩ := h
      cases hstop
      exact hfault
  · rintro ⟨hflag, hknown, hmain⟩
    obtain ⟨c, hc⟩ := Option.ne_none_iff_exists'.mp hknown
    have hpeek : Stack.peekNumber ⟨LockTime.operandLength, r.flags.has .minimalData⟩ 0 m.main =
        .error (.noElement 0 0) [] := by
      rw [hmain]
      rfl
    unfold lockTime
    rw [hflag, if_pos rfl, underflows_bind_of_ok (requireContext_eq hc op m)]
    exact underflows_bind_iff.mpr (.inl (underflows_onMain hpeek trivial))

/-! ## All operations -/

/-- An operation that finds out by itself what it needs finds fewer elements. -/
inductive Overdraws (r : Rules) (m : Machine) : Operation → Prop
  /-- The index of `PICK` or `ROLL` is negative, or not below the depth that remains. -/
  | index {a : Bytes} {rest : Stack} {x : StackOp} {n : Int} (hx : x = .pick ∨ x = .roll)
      (hmain : m.main = a :: rest) (hn : Number.decode r.numberFormat a = .ok n)
      (h : n < 0 ∨ (rest.length : Int) ≤ Number.clamp 64 n) : Overdraws r m (.stack x)
  /-- `FROMALTSTACK` needs an element of the alt stack. -/
  | fromAlt (h : m.alt = []) : Overdraws r m (.stack .fromAlt)
  /-- `CHECKMULTISIG` needs as many elements as its counts ask for. -/
  | counts {a : Bytes} {rest : Stack} (checked : Bool) (hcontext : r.context ≠ none)
      (hmain : m.main = a :: rest) (h : r.Overcounts m.operations a rest) :
      Overdraws r m (.crypto (.checkMultisig checked))
  /-- A check of a lock time needs its operand, unless it does nothing. -/
  | lockTime (x : LockTimeOp) (hflag : r.flags.has (lockTimeFlag x) = true)
      (hcontext : r.context ≠ none) (hmain : m.main = []) : Overdraws r m (.lockTime x)

theorem Overdraws.selfchecked {x : Operation} (h : Overdraws r m x) : x.Selfchecked := by
  cases h with
  | index hx => rcases hx with rfl | rfl <;> exact trivial
  | fromAlt => exact trivial
  | counts => exact trivial
  | lockTime => exact trivial

theorem overdraws_index_iff {x : StackOp} (hx : x = .pick ∨ x = .roll)
    (hmain : m.main = a :: rest) :
    Overdraws r m (.stack x) ↔ ∃ n, Number.decode r.numberFormat a = .ok n ∧
      (n < 0 ∨ (rest.length : Int) ≤ Number.clamp 64 n) := by
  constructor
  · intro h
    cases h with
    | index _ hmain' hn h =>
      rw [hmain] at hmain'
      cases hmain'
      exact ⟨_, hn, h⟩
    | fromAlt => rcases hx with hx | hx <;> cases hx
  · rintro ⟨n, hn, h⟩
    exact .index hx hmain hn h

theorem overdraws_fromAlt_iff : Overdraws r m (.stack .fromAlt) ↔ m.alt = [] := by
  refine ⟨fun h => ?_, .fromAlt⟩
  cases h with
  | index hx => rcases hx with hx | hx <;> cases hx
  | fromAlt h => exact h

theorem overdraws_checkMultisig_iff {checked : Bool} (hmain : m.main = a :: rest) :
    Overdraws r m (.crypto (.checkMultisig checked)) ↔
      r.context ≠ none ∧ r.Overcounts m.operations a rest := by
  refine ⟨fun h => ?_, fun h => .counts checked h.1 hmain h.2⟩
  cases h with
  | counts _ hcontext hmain' h =>
    rw [hmain] at hmain'
    cases hmain'
    exact ⟨hcontext, h⟩

theorem overdraws_lockTime_iff {x : LockTimeOp} : Overdraws r m (.lockTime x) ↔
    r.flags.has (lockTimeFlag x) = true ∧ r.context ≠ none ∧ m.main = [] := by
  refine ⟨fun h => ?_, fun h => .lockTime x h.1 h.2.1 h.2.2⟩
  cases h with
  | lockTime _ hflag hcontext hmain => exact ⟨hflag, hcontext, hmain⟩

theorem underflows_fromAlt_iff : Underflows (stack r .fromAlt) m ↔ m.alt = [] := by
  show Underflows (onAlt Stack.pop >>= push) m ↔ _
  rw [underflows_bind_of_second fun b => draws_push b]
  cases halt : m.alt with
  | nil =>
    have hpop : onAlt Stack.pop m = .error (.noElement 0 0) { m with alt := [] } := by
      unfold onAlt
      rw [halt]
      rfl
    exact iff_of_true ⟨_, _, hpop, trivial⟩ rfl
  | cons b below =>
    refine iff_of_false ?_ (List.cons_ne_nil b below)
    rintro ⟨fault, after, hpop, -⟩
    unfold onAlt at hpop
    rw [halt] at hpop
    cases hpop

/-- An operation of the stack that finds out by itself what it needs. -/
theorem underflows_stack_iff {x : StackOp} (hself : (Operation.stack x).Selfchecked)
    (harity : (Operation.stack x).arity ≤ m.main.length) :
    Underflows (stack r x) m ↔ Overdraws r m (.stack x) := by
  cases x with
  | pick =>
    obtain ⟨a, rest, hmain⟩ := List.exists_cons_of_length_pos harity
    rw [overdraws_index_iff (.inl rfl) hmain]
    exact underflows_index_iff (fun _ _ => underflows_pick_iff) hmain
  | roll =>
    obtain ⟨a, rest, hmain⟩ := List.exists_cons_of_length_pos harity
    rw [overdraws_index_iff (.inr rfl) hmain]
    exact underflows_index_iff (fun _ _ => underflows_roll_iff) hmain
  | fromAlt => exact underflows_fromAlt_iff.trans overdraws_fromAlt_iff.symm
  | _ => exact hself.elim

/-- **When an operation underflows** that finds as many elements as its arity says. -/
theorem underflows_perform_iff (script : List Instruction) (offset : Nat) {i : Instruction}
    (harity : i.operation.arity ≤ m.main.length) :
    Underflows (perform r script offset true i) m ↔ Overdraws r m i.operation := by
  by_cases hself : i.operation.Selfchecked
  swap
  · -- neither happens to an operation that draws on its arity
    obtain ⟨l, hdraws⟩ := draws_perform (r := r) script offset i hself
    exact iff_of_false (not_underflows_of_draws hdraws harity) fun h => hself h.selfchecked
  unfold perform
  cases hop : i.operation with
  | stack x =>
    rw [hop] at hself harity
    exact underflows_stack_iff hself harity
  | crypto x =>
    rw [hop] at hself harity
    cases x with
    | checkMultisig checked =>
      obtain ⟨a, rest, hmain⟩ := List.exists_cons_of_length_pos harity
      rw [overdraws_checkMultisig_iff hmain]
      exact underflows_checkMultisig_iff script offset i.code checked hmain
    | _ => exact hself.elim
  | lockTime x => exact (underflows_lockTime_iff i.code x).trans overdraws_lockTime_iff.symm
  | _ =>
    rw [hop] at hself
    exact hself.elim

/-! ## One instruction -/

section

variable {script : List Instruction} {offset : Nat} {i : Instruction} {fault : Fault}
  {after : Machine}

/-- An instruction that is executed and not ready has at most been counted and noted. -/
theorem step_of_not_readies (hexecuting : m.branches.isExecuting = true)
    (h : ¬r.Readies i m.operations) :
    ∃ fault after, step r script offset i m = .error fault after ∧
      fault.code ∈ .minimalData :: FailureCode.everywhere ∧ after.main = m.main ∧
      after.alt = m.alt := by
  rw [step_eq]
  cases hinspect : inspect r i m with
  | error fault after =>
    obtain ⟨hcode, operations, rfl⟩ := inspect_eq_error hinspect
    exact ⟨fault, _, bind_of_error hinspect, List.mem_cons_of_mem _ hcode, rfl, rfl⟩
  | ok u after =>
    obtain ⟨hgrants, rfl⟩ := inspect_eq_ok hinspect
    have hpush : (!(r.flags.has .minimalData && decide (i.code ≤ 0x4e)) || i.isMinimal) = false :=
      Bool.eq_false_iff.mpr fun hpush => h (readies_iff.mpr ⟨hgrants, hpush⟩)
    refine ⟨.notMinimalPush i, m.entering offset i, ?_, List.mem_cons_self, rfl, rfl⟩
    rw [bind_of_ok hinspect,
      enter_of_executing (m := { m with operations := m.operations + i.cost }) hexecuting]
    refine bind_of_error (bind_of_error ?_)
    rw [hpush]
    rfl

theorem possible_of_step (h : step r script offset i m = .error fault after) : fault.Possible r :=
  ((keeps_step (frames_asking r fun _ => True) (fun _ _ => questions_of_eq rfl)
    (fun _ => steers_asking r _) (fun _ _ => questions_of_eq rfl)
    fun _ _ _ => permits_asking fun _ _ => trivial).fails h).1

end

end Run

/-- Transactions refuse digests with a code that is not among those of the machine. -/
theorem BoundInput.code_of_digest {b : BoundInput} {asked : Nat} {code : Bytes}
    {flag : SighashFlag} {forkId : Bool} {cause : Failure}
    (h : b.digest asked code flag forkId = .error cause) : cause.code = .invalidIndex := by
  unfold digest at h
  split at h
  · generalize (if forkId then b.tx.amountDigest asked code b.amount flag
      else b.tx.legacyDigest asked code flag) = made at h
    cases made with
    | ok digest => cases h
    | error e =>
      cases h
      rfl
  · cases h
    rfl

namespace Run

/-- The fault only passes on why a digest was refused, by a transaction that is not one of those
that a spend is verified against. -/
def ForeignRefusal (r : Rules) (fault : Fault) : Prop :=
  ∃ c code b forkId cause, r.context = some c ∧ (∀ bound : BoundInput, c ≠ bound.context) ∧
    c.digest r.input code (.ofByte b) forkId = .error cause ∧ fault = .context cause

/-- A fault with the code of the faults of stacks. -/
theorem underflow_or_foreignRefusal {r : Rules} {fault : Fault} (hpossible : fault.Possible r)
    (hcode : fault.code = .invalidStackOperation) :
    fault.Underflow ∨ ForeignRefusal r fault := by
  by_cases hcontext : ∃ cause, fault = .context cause
  · obtain ⟨cause, rfl⟩ := hcontext
    obtain ⟨c, code, b, forkId, hc, hrefused⟩ := hpossible
    refine .inr ⟨c, code, b, forkId, cause, hc, ?_, hrefused, rfl⟩
    rintro bound rfl
    have hbound : cause.code = .invalidIndex := BoundInput.code_of_digest hrefused
    cases hbound.symm.trans hcode
  · exact .inl (Fault.underflow_iff.mpr ⟨hcode, fun cause h => hcontext ⟨cause, h⟩⟩)

/-- **The arities protect the operations.**  An instruction is executed.

* If it is not ready it fails for that: for the size of its payload, for its gate, as one operation
  too many or as a push that is not minimal.
* If it is ready and the stack is less deep than its arity, it fails with an invalid stack
  operation.
* If it is ready and the stack is as deep, it fails with an invalid stack operation if it overdraws,
  and for nothing else; another fault with that code can only come from a transaction that makes its
  own digests.

In the first two cases both stacks stay as they are. -/
theorem arity_protects (r : Rules) (script : List Instruction) (offset : Nat) (i : Instruction)
    (m : Machine) (hexecuting : m.branches.isExecuting = true) :
    (¬r.Readies i m.operations →
      ∃ fault after, step r script offset i m = .error fault after ∧
        fault.code ∈ .minimalData :: FailureCode.everywhere ∧ after.main = m.main ∧
        after.alt = m.alt) ∧
    (r.Readies i m.operations → m.main.length < i.operation.arity →
      ∃ fault after, step r script offset i m = .error fault after ∧
        fault.code = .invalidStackOperation ∧ after.main = m.main ∧ after.alt = m.alt) ∧
    (r.Readies i m.operations → i.operation.arity ≤ m.main.length →
      (∀ fault after, step r script offset i m = .error fault after →
        fault.code = .invalidStackOperation →
          Overdraws r (m.entering offset i) i.operation ∨ ForeignRefusal r fault) ∧
      (Overdraws r (m.entering offset i) i.operation →
        ∃ fault after, step r script offset i m = .error fault after ∧
          fault.code = .invalidStackOperation)) := by
  refine ⟨step_of_not_readies hexecuting, fun hready hshallow => ?_, fun hready harity => ?_⟩
  · exact ⟨_, _, step_of_shallow hexecuting hready hshallow, rfl, rfl, rfl⟩
  · have hiff : Underflows (perform r script offset true i) (m.entering offset i) ↔ _ :=
      underflows_perform_iff script offset harity
    refine ⟨fun fault after hstep hcode => ?_, fun hoverdraws => ?_⟩
    · refine (underflow_or_foreignRefusal (possible_of_step hstep) hcode).imp_left fun hfault => ?_
      rw [step_of_readies hexecuting hready harity] at hstep
      exact hiff.mp ⟨fault, after, hstep, hfault⟩
    · obtain ⟨fault, after, hperform, hfault⟩ := hiff.mpr hoverdraws
      rw [step_of_readies hexecuting hready harity]
      exact ⟨fault, after, hperform, (Fault.underflow_iff.mp hfault).1⟩

/-- On two elements `PICK` is protected, and overdraws nevertheless; on none it is too shallow. -/
theorem arity_protects_pick :
    let r : Rules := ⟨.consensus, .none, .secp256k1, none, 0⟩
    let m : Machine := { Machine.start with main := [[5], [1]] }
    let i : Instruction := ⟨0x79, none⟩
    m.branches.isExecuting = true ∧ r.Readies i m.operations ∧
    i.operation.arity ≤ m.main.length ∧ Overdraws r (m.entering 0 i) i.operation ∧
    Machine.start.main.length < i.operation.arity ∧
    (∃ fault after, step r [i] 0 i m = .error fault after ∧
      fault.code = .invalidStackOperation) ∧
    ∃ fault after, step r [i] 0 i Machine.start = .error fault after ∧
      fault.code = .invalidStackOperation ∧ after.main = [] := by
  intro r m i
  have hready : r.Readies i 0 :=
    ⟨⟨by decide, trivial, fun _ => by decide⟩, fun _ hcode => absurd hcode (by decide)⟩
  have harity : i.operation.arity ≤ m.main.length := by decide
  have hoverdraws : Overdraws r (m.entering 0 i) i.operation :=
    .index (n := 5) (.inl rfl) rfl (by decide +kernel) (.inr (by decide))
  have hshallow : Machine.start.main.length < i.operation.arity := by decide
  obtain ⟨-, -, hdeep⟩ := arity_protects r [i] 0 i m rfl
  obtain ⟨-, hempty, -⟩ := arity_protects r [i] 0 i Machine.start rfl
  obtain ⟨fault, after, hfails, hcode, hmain, -⟩ := hempty hready hshallow
  exact ⟨rfl, hready, harity, hoverdraws, hshallow, (hdeep hready harity).2 hoverdraws,
    fault, after, hfails, hcode, hmain⟩

end Run

end CoinScript
