import CoinScript.Proofs.Machine.Law
import CoinScript.Proofs.Number.ShortestForm
import Mathlib.Data.Nat.Bitwise

/-!
# Lock times

The two checks of lock times look at the top of the stack and at the transaction, and leave both as they
are.  What they ask for is said bit by bit in `AbsoluteMet` and `RelativeMet`.

The absolute check reads its rule off directly: two numbers are of the same kind and ordered.  The
relative check makes the same comparison on what a mask leaves of both numbers, the bit that tells the
kinds apart and sixteen bits below it.  The mark that separates the kinds is that bit itself, so the
comparison with it asks for the bit alone, and where the bits agree the order is that of the low bits
(`check_relativePart_eq_ok_iff`).  Bits above, also those of operands that do not fit into 32 bits, are
not looked at, except for the one that switches the check off.
-/

namespace CoinScript

namespace LockTime

variable {e : Bytes} {v : Nat}

/-- An operand that stands for a lock time. -/
structure IsOperand (minimal : Bool) (e : Bytes) (v : Nat) : Prop where
  length_le : e.length ≤ 5
  shortest : minimal = true → Number.encode v = e
  value_eq : Number.value e = v

/-- The transaction meets an absolute lock time. -/
structure AbsoluteMet (c : Context) (input v : Nat) : Prop where
  notFinal : ∃ sequence, c.sequence input = some sequence ∧ sequence ≠ 0xffffffff
  sameKind : v < 500000000 ↔ c.lockTime.toNat < 500000000
  passed : v ≤ c.lockTime.toNat

/-- A sequence number meets a relative lock time. -/
structure RelativeMetBy (sequence v : Nat) : Prop where
  enabled : sequence.testBit 31 = false
  sameKind : v.testBit 22 = sequence.testBit 22
  passed : v % 2 ^ 16 ≤ sequence % 2 ^ 16

/-- The transaction meets a relative lock time, or there is nothing to meet. -/
def RelativeMet (c : Context) (input v : Nat) : Prop :=
  v.testBit 31 = true ∨
    2 ≤ c.version.toNat ∧ ∃ sequence, c.sequence input = some sequence ∧
      RelativeMetBy sequence.toNat v

/-- What an operation asks of the transaction. -/
def Met (c : Context) (input v : Nat) : LockTimeOp → Prop
  | .absolute => AbsoluteMet c input v
  | .relative => RelativeMet c input v

theorem decode_eq_ok_iff_isOperand {minimal : Bool} :
    Number.decode ⟨operandLength, minimal⟩ e = .ok (v : Int) ↔ IsOperand minimal e v := by
  cases minimal with
  | false =>
    rw [Number.decode_eq_ok_iff]
    exact ⟨fun ⟨hlength, hvalue⟩ => ⟨hlength, nofun, hvalue⟩,
      fun h => ⟨h.length_le, h.value_eq⟩⟩
  | true =>
    rw [Number.decode_minimal_eq_ok_iff]
    refine ⟨fun ⟨hlength, hwritten⟩ => ⟨hlength, fun _ => hwritten, ?_⟩,
      fun h => ⟨h.length_le, h.shortest rfl⟩⟩
    rw [← hwritten, Number.value_encode]

/-! ## Comparing -/

/-- **What the comparison asks for.** -/
theorem check_eq_ok_iff {bound available required : Nat} :
    check bound available required = .ok () ↔
      (required < bound ↔ available < bound) ∧ required ≤ available := by
  have hkinds : (decide (available < bound) != decide (required < bound)) = true ↔
      ¬(required < bound ↔ available < bound) := by
    rw [bne_iff_ne, ne_eq, decide_eq_decide]
    exact not_congr iff_comm
  unfold check
  split
  · next hdiffer => exact iff_of_false nofun fun h => hkinds.mp hdiffer h.1
  next hsame =>
  split
  · next hlate => exact iff_of_false nofun fun h => Nat.not_le.mpr hlate h.2
  · next hpassed =>
    exact iff_of_true rfl ⟨not_not.mp (mt hkinds.mpr hsame), Nat.not_lt.mp hpassed⟩

/-- What the mask leaves of a relative lock time. -/
theorem relativePart_eq (n : Nat) :
    relativePart n = 2 ^ 22 * (n.testBit 22).toNat + n % 2 ^ 16 := by
  have hmark : n &&& secondsMark = 2 ^ 22 * (n.testBit 22).toNat := by
    rw [show secondsMark = 2 ^ 22 from rfl, Nat.and_two_pow, Nat.mul_comm]
  have hvalue : n &&& valueMask = n % 2 ^ 16 := Nat.and_two_pow_sub_one_eq_mod n 16
  have hbelow : n % 2 ^ 16 < 2 ^ 22 :=
    Nat.lt_of_lt_of_le (Nat.mod_lt n (by decide)) (by decide)
  unfold relativePart
  rw [Nat.and_or_distrib_left, hmark, hvalue, Nat.two_pow_add_eq_or_of_lt hbelow]

/-- The mark separates the kinds: below it the bit is not set. -/
theorem relativePart_lt_iff (n : Nat) :
    relativePart n < secondsMark ↔ n.testBit 22 = false := by
  have hmark : secondsMark = 2 ^ 22 := rfl
  rw [relativePart_eq, hmark]
  cases n.testBit 22 with
  | false => exact iff_of_true (by rw [Bool.toNat_false]; omega) rfl
  | true => exact iff_of_false (by rw [Bool.toNat_true]; omega) nofun

/-- **The masked comparison** asks for the bit of the kind and for the order of the low bits. -/
theorem check_relativePart_eq_ok_iff {sequence required : Nat} :
    check secondsMark (relativePart sequence) (relativePart required) = .ok () ↔
      required.testBit 22 = sequence.testBit 22 ∧ required % 2 ^ 16 ≤ sequence % 2 ^ 16 := by
  rw [check_eq_ok_iff, relativePart_lt_iff, relativePart_lt_iff, relativePart_eq, relativePart_eq]
  constructor
  · rintro ⟨hkind, hle⟩
    have hbit : required.testBit 22 = sequence.testBit 22 := Bool.eq_iff_iff.mpr (by
      rw [← Bool.not_eq_false, ← Bool.not_eq_false, hkind])
    rw [hbit] at hle
    exact ⟨hbit, Nat.le_of_add_le_add_left hle⟩
  · rintro ⟨hbit, hle⟩
    rw [hbit]
    exact ⟨Iff.rfl, Nat.add_le_add_left hle _⟩

end LockTime

namespace Run

open LockTime

variable {r : Rules} {c : Context} {v : Nat} {m after : Machine}

/-! ## The two checks -/

theorem inputSequence_of_some {sequence : UInt32} (h : c.sequence r.input = some sequence) :
    inputSequence r c m = .ok sequence m := by
  unfold inputSequence
  rw [h]
  rfl

/-- **The absolute check succeeds where the lock time is met.** -/
theorem checkAbsolute_eq_ok_iff : checkAbsolute r c v m = .ok () m ↔ AbsoluteMet c r.input v := by
  constructor
  · intro h
    obtain ⟨_, m₁, hcompare, hrest⟩ := bind_eq_ok h
    obtain ⟨hcheck, rfl⟩ := ofExcept_eq_ok hcompare
    obtain ⟨sequence, m₂, hask, hlast⟩ := bind_eq_ok hrest
    obtain ⟨hsequence, rfl⟩ := inputSequence_eq_ok hask
    obtain ⟨hfinal, -⟩ := require_eq_ok hlast
    obtain ⟨hkind, hle⟩ := check_eq_ok_iff.mp hcheck
    exact ⟨⟨sequence, hsequence, bne_iff_ne.mp hfinal⟩, hkind, hle⟩
  · rintro ⟨⟨sequence, hsequence, hfinal⟩, hkind, hle⟩
    have hcompare : check threshold c.lockTime.toNat v = .ok () :=
      check_eq_ok_iff.mpr ⟨hkind, hle⟩
    have hcheck : ofExcept (check threshold c.lockTime.toNat v) m = .ok () m := by
      rw [hcompare]
      rfl
    unfold checkAbsolute
    rw [bind_of_ok hcheck, bind_of_ok (inputSequence_of_some hsequence),
      show (sequence != finalSequence) = true from bne_iff_ne.mpr hfinal]
    rfl

/-- Versions are not negative. -/
theorem two_le_version_iff : 2 ≤ c.version ↔ 2 ≤ c.version.toNat := UInt32.le_iff_toNat_le

/-- **The relative check succeeds where the lock time is met.** -/
theorem checkRelative_eq_ok_iff : checkRelative r c v m = .ok () m ↔ RelativeMet c r.input v := by
  unfold checkRelative RelativeMet
  split
  · next hoff => exact iff_of_true rfl (.inl hoff)
  next hon =>
  constructor
  · intro h
    obtain ⟨hversion, hrest⟩ := require_bind_eq_ok h
    obtain ⟨sequence, m₁, hask, hlast⟩ := bind_eq_ok hrest
    obtain ⟨hsequence, rfl⟩ := inputSequence_eq_ok hask
    obtain ⟨henabled, hcompare⟩ := require_bind_eq_ok hlast
    obtain ⟨hcheck, -⟩ := ofExcept_eq_ok hcompare
    obtain ⟨hkind, hle⟩ := check_relativePart_eq_ok_iff.mp hcheck
    exact .inr ⟨two_le_version_iff.mp (of_decide_eq_true hversion), sequence, hsequence,
      (Bool.not_eq_true' _).mp henabled, hkind, hle⟩
  · rintro (hoff | ⟨hversion, sequence, hsequence, henabled, hkind, hle⟩)
    · exact absurd hoff hon
    · have hbit : (!sequence.toNat.testBit disableBit) = true :=
        (Bool.not_eq_true' _).mpr henabled
      rw [require_bind_of_true (decide_eq_true (two_le_version_iff.mpr hversion)),
        bind_of_ok (inputSequence_of_some hsequence), require_bind_of_true hbit,
        check_relativePart_eq_ok_iff.mpr ⟨hkind, hle⟩]
      rfl

/-! ## The two operations -/

/-- The top is read as an operand where it stands. -/
theorem peekNumber_eq_ok_iff {format : Number.Format} {e : Bytes} {rest : Stack} {n : Int}
    (hmain : m.main = e :: rest) :
    onMain (Stack.peekNumber format 0) m = .ok n after ↔
      Number.decode format e = .ok n ∧ after = m := by
  have hread : Stack.peekNumber format 0 (e :: rest) = Stack.asNumber format e (e :: rest) := rfl
  unfold onMain
  rw [hmain, hread]
  unfold Stack.asNumber
  cases Number.decode format e with
  | error cause => exact iff_of_false nofun fun h => nomatch h.1
  | ok k =>
    have hsame : { m with main := e :: rest } = m := by rw [← hmain]
    constructor
    · intro h
      cases h
      exact ⟨rfl, hsame⟩
    · rintro ⟨hk, hafter⟩
      cases hk
      rw [hafter]
      exact congrArg (EStateM.Result.ok _) hsame

/-- **When a check of a lock time succeeds**, where it is switched on. -/
theorem lockTime_eq_ok_iff (op : Opcode) (x : LockTimeOp) {e : Bytes} {rest : Stack}
    (hflag : r.flags.has (lockTimeFlag x) = true) (hcontext : r.context = some c)
    (hmain : m.main = e :: rest) :
    lockTime r op x m = .ok () m ↔
      ∃ v, IsOperand (r.flags.has .minimalData) e v ∧ Met c r.input v x := by
  unfold lockTime
  rw [if_pos hflag, bind_of_ok (requireContext_eq hcontext op m)]
  constructor
  · intro h
    obtain ⟨n, m', hpeek, hrest⟩ := bind_eq_ok h
    obtain ⟨hread, rfl⟩ := (peekNumber_eq_ok_iff hmain).mp hpeek
    obtain ⟨hnonneg, hmet⟩ := require_bind_eq_ok hrest
    obtain ⟨v, rfl⟩ := Int.eq_ofNat_of_zero_le (of_decide_eq_true hnonneg)
    refine ⟨v, decode_eq_ok_iff_isOperand.mp hread, ?_⟩
    cases x with
    | absolute => exact checkAbsolute_eq_ok_iff.mp hmet
    | relative => exact checkRelative_eq_ok_iff.mp hmet
  · rintro ⟨v, hoperand, hmet⟩
    have hread := (peekNumber_eq_ok_iff hmain).mpr
      ⟨decode_eq_ok_iff_isOperand.mpr hoperand, rfl⟩
    rw [bind_of_ok hread, require_bind_of_true (decide_eq_true (Int.natCast_nonneg v))]
    cases x with
    | absolute => exact checkAbsolute_eq_ok_iff.mpr hmet
    | relative => exact checkRelative_eq_ok_iff.mpr hmet

/-- The law that allows no change, whatever happens. -/
def still : Law where
  moves m after := after = m
  fails m _ after := after = m

theorem still_inherited (r : Rules) : Law.Inherited r still where
  refl _ := rfl
  trans h h' := h'.trans h
  before h h' := h'.trans h
  stop _ _ _ := rfl

/-- **A check of a lock time changes nothing**, switched on or off. -/
theorem lockTime_still {op : Opcode} {x : LockTimeOp}
    (h : lockTime r op x m = .ok () after ∨ ∃ fault, lockTime r op x m = .error fault after) :
    after = m := by
  have hkeeps : Keeps still (lockTime r op x) m := keeps_lockTime (still_inherited r) op x
  rcases h with hok | ⟨fault, herror⟩
  · exact hkeeps.moves hok
  · exact hkeeps.fails herror

theorem exists_lockTime_eq_ok_iff {op : Opcode} {x : LockTimeOp} :
    (∃ after, lockTime r op x m = .ok () after) ↔ lockTime r op x m = .ok () m := by
  refine ⟨fun ⟨after, h⟩ => ?_, fun h => ⟨m, h⟩⟩
  rw [lockTime_still (.inl h)] at h
  exact h

/-- **The opcodes for lock times follow the bits of their numbers.**  With its flag set each succeeds
if and only if the top of the stack is an operand that stands for a lock time, five bytes at most and
not negative, and the transaction meets that lock time.  Neither changes the machine, whether it succeeds
or fails, and whatever the flags, the context and the stack. -/
theorem lockTimes_exact (r : Rules) (script : List Instruction) (offset : Nat) (m : Machine) :
    let absolute := perform r script offset true ⟨0xb1, none⟩ m
    let relative := perform r script offset true ⟨0xb2, none⟩ m
    (∀ (c : Context) (e : Bytes) (rest : Stack), r.context = some c → m.main = e :: rest →
      (r.flags.has .absoluteLockTime = true →
        ((∃ after, absolute = .ok () after) ↔
          ∃ v, IsOperand (r.flags.has .minimalData) e v ∧ AbsoluteMet c r.input v)) ∧
      (r.flags.has .relativeLockTime = true →
        ((∃ after, relative = .ok () after) ↔
          ∃ v, IsOperand (r.flags.has .minimalData) e v ∧ RelativeMet c r.input v))) ∧
    ∀ after,
      (absolute = .ok () after ∨ (∃ fault, absolute = .error fault after) → after = m) ∧
      (relative = .ok () after ∨ (∃ fault, relative = .error fault after) → after = m) := by
  intro absolute relative
  refine ⟨fun c e rest hcontext hmain => ⟨fun hflag => ?_, fun hflag => ?_⟩,
    fun after => ⟨lockTime_still, lockTime_still⟩⟩
  · exact exists_lockTime_eq_ok_iff.trans
      (lockTime_eq_ok_iff 0xb1 .absolute hflag hcontext hmain)
  · exact exists_lockTime_eq_ok_iff.trans
      (lockTime_eq_ok_iff 0xb2 .relative hflag hcontext hmain)

/-- A transaction that is locked until 600000000 seconds, with an input that waits for 10 units of 512
seconds: an earlier time and a shorter wait are met, and a wait of blocks is not. -/
theorem lockTimes_of_seconds :
    let c : Context := ⟨fun _ _ _ _ => .ok (.zero 32), fun _ _ _ _ => [], 600000000, 2,
      fun _ => some 0x0040000a⟩
    let r : Rules := ⟨.consensus, .standard, .secp256k1, some c, 0⟩
    let start (e : Bytes) : Machine := { Machine.start with main := [e] }
    let earlier := start [0xff, 0x45, 0xc3, 0x23]
    let shorter := start [0x05, 0x00, 0x40]
    perform r [] 0 true ⟨0xb1, none⟩ earlier = .ok () earlier ∧
      perform r [] 0 true ⟨0xb2, none⟩ shorter = .ok () shorter ∧
      ∀ after, perform r [] 0 true ⟨0xb2, none⟩ (start [0x05]) ≠ .ok () after := by
  intro c r start earlier shorter
  obtain ⟨habsolute, hearlier⟩ := lockTimes_exact r [] 0 earlier
  obtain ⟨hrelative, hshorter⟩ := lockTimes_exact r [] 0 shorter
  obtain ⟨hblocks, -⟩ := lockTimes_exact r [] 0 (start [0x05])
  refine ⟨?_, ?_, fun after hafter => ?_⟩
  · obtain ⟨after, hafter⟩ := ((habsolute c _ [] rfl rfl).1 (by decide)).mpr
      ⟨599999999, ⟨by decide, fun _ => by decide +kernel, by decide +kernel⟩,
        ⟨_, rfl, by decide⟩, by decide, by decide⟩
    cases (hearlier after).1 (.inl hafter)
    exact hafter
  · obtain ⟨after, hafter⟩ := ((hrelative c _ [] rfl rfl).2 (by decide)).mpr
      ⟨0x400005, ⟨by decide, fun _ => by decide +kernel, by decide +kernel⟩,
        .inr ⟨by decide, _, rfl, by decide, by decide, by decide⟩⟩
    cases (hshorter after).2 (.inl hafter)
    exact hafter
  · obtain ⟨v, hoperand, hmet⟩ := ((hblocks c _ [] rfl rfl).2 (by decide)).mp ⟨after, hafter⟩
    have hfive : Number.value [0x05] = ((5 : Nat) : Int) := by decide +kernel
    obtain rfl : v = 5 := Int.natCast_inj.mp (hoperand.value_eq.symm.trans hfive)
    obtain hoff | ⟨-, sequence, hsequence, hby⟩ := hmet
    · exact absurd hoff (by decide)
    · cases hsequence
      exact absurd hby.sameKind (by decide)

end Run

end CoinScript
