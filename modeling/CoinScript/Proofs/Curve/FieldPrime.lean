import CoinScript.Curve.Lemmas
import CoinScript.Curve.Point
import Mathlib.Data.List.Prime
import Mathlib.FieldTheory.Finite.Basic
import Mathlib.NumberTheory.LucasPrimality
import Mathlib.Tactic.MkIffOfInductiveProp

/-!
# The field of coordinates

Coordinates are numbers modulo `Secp256k1.prime`.  That this is a prime is what makes square roots
work: a square has the root that `sqrt?` computes as a power, and its negative, and no other.

The prime is given by a certificate in the manner of Pratt.  Each entry has a witness and the prime
factors of the number below, and these have entries of their own further down; Lucas's test then says
that the number is prime (`Modular.Pratt.Passes.prime`).  The powers are those the program computes.

* `prime_isPrime`: the modulus is a prime.
* `exists_sqrt?`: a square has a root, and it is one of the two.
* `cubic_ne_zero`: no point of the curve has its `y` zero, as `-7` is not a cube.
-/

namespace CoinScript

namespace Modular

/-! ## Certificates -/

/-- A number, a witness that is to be of order one below it, and the prime factors of that order. -/
structure Pratt where
  number : Nat
  witness : Nat
  factors : List Nat

namespace Pratt

variable {entry : Pratt} {known : List Nat} {certificate : List Pratt}

/-- Lucas's test, for factors among the known primes. -/
@[mk_iff]
structure Passes (entry : Pratt) (known : List Nat) : Prop where
  one_lt : 1 < entry.number
  known : ∀ q ∈ entry.factors, q ∈ known
  prod : entry.factors.prod + 1 = entry.number
  power : pow entry.number entry.witness (entry.number - 1) = 1
  powers : ∀ q ∈ entry.factors,
    pow entry.number entry.witness ((entry.number - 1) / q) ≠ 1

instance (entry : Pratt) (known : List Nat) : Decidable (entry.Passes known) :=
  decidable_of_iff' _ (passes_iff entry known)

/-- Every entry passes with the numbers of the entries after it. -/
def Valid : List Pratt → Prop
  | [] => True
  | entry :: rest => entry.Passes (rest.map number) ∧ Valid rest

instance decidableValid : (certificate : List Pratt) → Decidable (Valid certificate)
  | [] => isTrue trivial
  | entry :: rest =>
    have := decidableValid rest
    inferInstanceAs (Decidable (entry.Passes (rest.map number) ∧ Valid rest))

theorem natCast_pow_eq_one_iff {m a e : Nat} (hm : 1 < m) : (a : ZMod m) ^ e = 1 ↔ pow m a e = 1 := by
  rw [pow_eq, ← Nat.cast_pow, ← Nat.cast_one, ZMod.natCast_eq_natCast_iff', Nat.mod_eq_of_lt hm]

theorem Passes.prime (h : entry.Passes known) (hknown : ∀ q ∈ known, q.Prime) :
    entry.number.Prime := by
  refine lucas_primality entry.number entry.witness
    ((natCast_pow_eq_one_iff h.one_lt).mpr h.power) fun q hq hdvd => ?_
  -- A prime factor of the number below divides one of the listed ones, and so is that one.
  have hprod : q ∣ entry.factors.prod := by
    rwa [← h.prod, Nat.add_sub_cancel] at hdvd
  obtain ⟨factor, hfactor, hdvd⟩ := (Prime.dvd_prod_iff hq.prime).mp hprod
  obtain rfl := (Nat.prime_dvd_prime_iff_eq hq (hknown factor (h.known factor hfactor))).mp hdvd
  rw [Ne, natCast_pow_eq_one_iff h.one_lt]
  exact h.powers q hfactor

/-- **All numbers of a valid certificate are primes.** -/
theorem Valid.prime (h : Valid certificate) : ∀ n ∈ certificate.map number, n.Prime := by
  induction certificate with
  | nil =>
    intro n hn
    cases hn
  | cons entry rest ih =>
    have hrest := ih h.2
    intro n hn
    rcases List.mem_cons.mp hn with rfl | hn
    · exact h.1.prime hrest
    · exact hrest n hn

end Pratt

end Modular

namespace Secp256k1

/-- Down from the prime of the field to two. -/
def certificate : List Modular.Pratt := [
  ⟨prime, 3, [2, 3, 7, 13441,
    205115282021455665897114700593932402728804164701536103180137503955397371]⟩,
  ⟨205115282021455665897114700593932402728804164701536103180137503955397371, 10,
    [2, 3, 5, 29, 29, 31, 7723, 132896956044521568488119,
      255515944373312847190720520512484175977]⟩,
  ⟨255515944373312847190720520512484175977, 3,
    [2, 2, 2, 7, 7, 11, 1627, 2657, 4423, 41201, 96557, 7240687, 107590001]⟩,
  ⟨132896956044521568488119, 6, [2, 3, 22149492674086928081353]⟩,
  ⟨22149492674086928081353, 5, [2, 2, 2, 3, 5323, 173378833005251801]⟩,
  ⟨173378833005251801, 6, [2, 2, 2, 5, 5, 2621, 24809, 13331831]⟩,
  ⟨107590001, 3, [2, 2, 2, 2, 5, 5, 5, 5, 7, 29, 53]⟩,
  ⟨13331831, 13, [2, 5, 971, 1373]⟩,
  ⟨7240687, 3, [2, 3, 1206781]⟩,
  ⟨1206781, 10, [2, 2, 3, 5, 20113]⟩,
  ⟨96557, 2, [2, 2, 101, 239]⟩,
  ⟨41201, 3, [2, 2, 2, 2, 5, 5, 103]⟩,
  ⟨24809, 6, [2, 2, 2, 7, 443]⟩,
  ⟨20113, 10, [2, 2, 2, 2, 3, 419]⟩,
  ⟨13441, 11, [2, 2, 2, 2, 2, 2, 2, 3, 5, 7]⟩,
  ⟨7723, 3, [2, 3, 3, 3, 11, 13]⟩,
  ⟨5323, 5, [2, 3, 887]⟩,
  ⟨4423, 3, [2, 3, 11, 67]⟩,
  ⟨2657, 3, [2, 2, 2, 2, 2, 83]⟩,
  ⟨2621, 2, [2, 2, 5, 131]⟩,
  ⟨1627, 3, [2, 3, 271]⟩,
  ⟨1373, 2, [2, 2, 7, 7, 7]⟩,
  ⟨971, 6, [2, 5, 97]⟩,
  ⟨887, 5, [2, 443]⟩,
  ⟨443, 2, [2, 13, 17]⟩,
  ⟨419, 2, [2, 11, 19]⟩,
  ⟨271, 6, [2, 3, 3, 3, 5]⟩,
  ⟨239, 7, [2, 7, 17]⟩,
  ⟨131, 2, [2, 5, 13]⟩,
  ⟨103, 5, [2, 3, 17]⟩,
  ⟨101, 2, [2, 2, 5, 5]⟩,
  ⟨97, 5, [2, 2, 2, 2, 2, 3]⟩,
  ⟨83, 2, [2, 41]⟩,
  ⟨67, 2, [2, 3, 11]⟩,
  ⟨53, 2, [2, 2, 13]⟩,
  ⟨41, 6, [2, 2, 2, 5]⟩,
  ⟨31, 3, [2, 3, 5]⟩,
  ⟨29, 2, [2, 2, 7]⟩,
  ⟨19, 2, [2, 3, 3]⟩,
  ⟨17, 3, [2, 2, 2, 2]⟩,
  ⟨13, 2, [2, 2, 3]⟩,
  ⟨11, 2, [2, 5]⟩,
  ⟨7, 3, [2, 3]⟩,
  ⟨5, 2, [2, 2]⟩,
  ⟨3, 2, [2]⟩,
  ⟨2, 1, []⟩]

theorem valid_certificate : Modular.Pratt.Valid certificate := by decide +kernel

/-- **The modulus is a prime.** -/
theorem prime_isPrime : prime.Prime := valid_certificate.prime prime List.mem_cons_self

instance : Fact prime.Prime := ⟨prime_isPrime⟩

/-! ## Square roots -/

variable {a x y : Nat}

theorem prime_pos : 0 < prime := prime_isPrime.pos

/-- A coordinate as an element of the field. -/
theorem natCast_inj_of_lt (hx : x < prime) (hy : y < prime) : (x : ZMod prime) = y ↔ x = y := by
  rw [ZMod.natCast_eq_natCast_iff', Nat.mod_eq_of_lt hx, Nat.mod_eq_of_lt hy]

theorem natCast_modularPow (a e : Nat) :
    ((Modular.pow prime a e : Nat) : ZMod prime) = (a : ZMod prime) ^ e := by
  rw [Modular.pow_eq, ZMod.natCast_mod, Nat.cast_pow]

theorem mod_eq_iff (ha : a < prime) : y * y % prime = a ↔ (y : ZMod prime) * y = a := by
  rw [← Nat.cast_mul, ZMod.natCast_eq_natCast_iff', Nat.mod_eq_of_lt ha]

/-- The other root. -/
theorem natCast_prime_sub (hy : y ≤ prime) : ((prime - y : Nat) : ZMod prime) = -y := by
  rw [Nat.cast_sub hy, ZMod.natCast_self, zero_sub]

theorem prime_sub_mul_self (hy : y ≤ prime) : (prime - y) * (prime - y) % prime = y * y % prime := by
  have hsquare : y * y % prime < prime := Nat.mod_lt _ prime_pos
  rw [mod_eq_iff hsquare, natCast_prime_sub hy, neg_mul_neg, ← mod_eq_iff hsquare]

/-- A root is computed as a power, which is then squared again. -/
theorem sqrt?_eq_some_iff :
    sqrt? a = some y ↔ Modular.pow prime a ((prime + 1) / 4) = y ∧ y * y % prime = a := by
  simp only [sqrt?, Option.ite_none_right_eq_some, Option.some.injEq]
  constructor
  · rintro ⟨hroot, rfl⟩
    exact ⟨rfl, hroot⟩
  · rintro ⟨rfl, hroot⟩
    exact ⟨hroot, rfl⟩

theorem lt_of_sqrt? (h : sqrt? a = some y) : y < prime := by
  obtain ⟨rfl, -⟩ := sqrt?_eq_some_iff.mp h
  rw [Modular.pow_eq]
  exact Nat.mod_lt _ prime_pos

/-- The power is a root of a square, by Fermat's little theorem. -/
theorem pow_mul_self_of_square {square root : ZMod prime} (h : root * root = square) :
    square ^ ((prime + 1) / 4) * square ^ ((prime + 1) / 4) = square := by
  have hexponent : 2 * ((prime + 1) / 4 + (prime + 1) / 4) = prime + 1 := by decide
  calc square ^ ((prime + 1) / 4) * square ^ ((prime + 1) / 4)
      = (root ^ 2) ^ ((prime + 1) / 4 + (prime + 1) / 4) := by rw [← pow_add, ← h, pow_two]
    _ = root ^ (prime + 1) := by rw [← pow_mul, hexponent]
    _ = square := by rw [pow_succ, ZMod.pow_card, h]

/-- **A square has the root that is computed**, and this is the number it is the square of or its
negative. -/
theorem exists_sqrt? (hy : y < prime) :
    ∃ root, sqrt? (y * y % prime) = some root ∧ (root = y ∨ root + y = prime) := by
  have hsquare : y * y % prime < prime := Nat.mod_lt _ prime_pos
  have hcast : (y : ZMod prime) * y = ((y * y % prime : Nat) : ZMod prime) :=
    (mod_eq_iff hsquare).mp rfl
  obtain ⟨root, hpower⟩ : ∃ root, Modular.pow prime (y * y % prime) ((prime + 1) / 4) = root :=
    ⟨_, rfl⟩
  have hroot : (root : ZMod prime) * root = ((y * y % prime : Nat) : ZMod prime) := by
    rw [← hpower, natCast_modularPow]
    exact pow_mul_self_of_square hcast
  have hsome : sqrt? (y * y % prime) = some root :=
    sqrt?_eq_some_iff.mpr ⟨hpower, (mod_eq_iff hsquare).mpr hroot⟩
  have hlt : root < prime := lt_of_sqrt? hsome
  refine ⟨root, hsome, ?_⟩
  rw [← hcast, mul_self_eq_mul_self_iff] at hroot
  rcases hroot with heq | hneg
  · exact .inl ((natCast_inj_of_lt hlt hy).mp heq)
  · rcases Nat.eq_zero_or_pos y with rfl | hpos
    · rw [Nat.cast_zero, neg_zero, ← Nat.cast_zero, natCast_inj_of_lt hlt hy] at hneg
      exact .inl hneg
    · rw [← natCast_prime_sub hy.le, natCast_inj_of_lt hlt (by omega)] at hneg
      exact .inr (by omega)

/-! ## The curve -/

/-- **No point has a `y` that is zero**: its `x` would be a cube root of `-7`, and the power of `-7`
that would be one is not. -/
theorem cubic_ne_zero (x : Nat) : cubic x ≠ 0 := by
  intro h
  have hcube : (x : ZMod prime) ^ 3 = ((prime - 7 : Nat) : ZMod prime) := by
    have hzero : ((cubic x : Nat) : ZMod prime) = 0 := by rw [h, Nat.cast_zero]
    rw [cubic, ZMod.natCast_mod, Nat.cast_add, Nat.cast_mul, ZMod.natCast_mod, Nat.cast_mul] at hzero
    rw [natCast_prime_sub (by decide), pow_succ, pow_two]
    exact eq_neg_of_add_eq_zero_left hzero
  have hx : (x : ZMod prime) ≠ 0 := by
    intro hx
    rw [hx, zero_pow (by decide), ← Nat.cast_zero, natCast_inj_of_lt prime_pos (by decide)] at hcube
    exact absurd hcube (by decide)
  have hpower : Modular.pow prime (prime - 7) ((prime - 1) / 3) ≠ 1 := by decide +kernel
  have hexponent : 3 * ((prime - 1) / 3) = prime - 1 := by decide
  refine hpower ((Modular.Pratt.natCast_pow_eq_one_iff prime_isPrime.one_lt).mp ?_)
  rw [← hcube, ← pow_mul, hexponent, ZMod.pow_card_sub_one_eq_one hx]

end Secp256k1

end CoinScript
