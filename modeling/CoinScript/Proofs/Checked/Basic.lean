import CoinScript.Bytes.Endian
import Mathlib.Data.List.Basic

/-!
# Operations that may be used outside their domain

The program computes with lists and with numbers of any size, or lets words run over, so that every
operation has a result.  A processor computes with words of 64 bits and with arrays, and there some
operations have none: an index may point outside, a difference may go below zero, a sum may not fit.
No verdict answers to that; the computation *crashes*.

`Checked` computations are written with these operations.  They stop for one of three causes: they
refuse, as the program does; an array is asked for that memory has no room for; or they crash.  The
second cause includes requests for more bytes than addresses can tell apart: no memory could serve
these, and asking for them ends the computation then and there (`allocate`).

The parts of the program that use such an operation are written once more as `Checked` computations,
step by step as a processor takes them, and each is shown to do what the program does.  Then none of
these operations is ever used outside its domain.

`Agrees R x y` is that comparison, up to a relation between the results; `Agrees.bind` composes it
part by part.  For equal results it says that `x` is `y` (`agrees_eq_iff`).
-/

namespace CoinScript

/-- The use of an operation on operands that it has no result for. -/
inductive Crash
  /-- There is no element with this index. -/
  | indexOutside
  /-- The range is not one of the array, or not of the length of what is copied into it. -/
  | rangeOutside
  | belowZero
  | aboveWord
  | divisionByZero
  | shiftTooFar
  /-- The opcode came to a family of operations that does not have it. -/
  | noHandler (op : UInt8)
  /-- A loop took more rounds than it has been given. -/
  | endless
deriving DecidableEq, Repr

/-- Why a computation on words and arrays stops. -/
inductive Stop (ε : Type)
  | refused (cause : ε)
  /-- Memory has no room for an array, or no memory could have. -/
  | exhausted
  | crashed (crash : Crash)
deriving DecidableEq, Repr

/-- A computation on words and arrays. -/
abbrev Checked (ε α : Type) := Except (Stop ε) α

namespace Checked

variable {ε ε' α β γ δ : Type}

/-- Refuses for a cause. -/
def refuse (cause : ε) : Checked ε α := .error (.refused cause)

/-- Crashes. -/
def crash (c : Crash) : Checked ε α := .error (.crashed c)

/-- A computation of the program as one that never crashes. -/
def ofExcept : Except ε α → Checked ε α
  | .ok a => .ok a
  | .error cause => refuse cause

/-- The same computation, with its causes seen as others. -/
def recast (f : ε → ε') : Checked ε α → Checked ε' α
  | .ok a => .ok a
  | .error (.refused cause) => .error (.refused (f cause))
  | .error .exhausted => .error .exhausted
  | .error (.crashed c) => .error (.crashed c)

/-! ## Words -/

/-- The first number that is not a word. -/
def wordSize : Nat := 0x10000000000000000

/-- The number of bytes that no array exceeds. -/
def addressSpace : Nat := 0x7fffffffffffffff

/-- The sum of two words. -/
def add (a b : Nat) : Checked ε Nat := if a + b < wordSize then .ok (a + b) else crash .aboveWord

/-- The product of two words. -/
def mul (a b : Nat) : Checked ε Nat := if a * b < wordSize then .ok (a * b) else crash .aboveWord

/-- The difference of two words. -/
def sub (a b : Nat) : Checked ε Nat := if b ≤ a then .ok (a - b) else crash .belowZero

/-- A number as a word of 16 bits with a sign. -/
def short (n : Int) : Checked ε Int :=
  if n < -0x8000 then crash .belowZero else if 0x7fff < n then crash .aboveWord else .ok n

/-- A word as a word of the same size with a sign. -/
def long (n : Nat) : Checked ε Int := if n ≤ addressSpace then .ok n else crash .aboveWord

/-- The quotient of two numbers, towards zero. -/
def divide (a b : Int) : Checked ε Int := if b = 0 then crash .divisionByZero else .ok (a.tdiv b)

/-- The remainder of that division. -/
def remainder (a b : Int) : Checked ε Int := if b = 0 then crash .divisionByZero else .ok (a.tmod b)

/-- The sum of two bytes. -/
def addByte (a b : UInt8) : Checked ε UInt8 :=
  if a.toNat + b.toNat < 256 then .ok (a + b) else crash .aboveWord

/-- The difference of two bytes. -/
def subByte (a b : UInt8) : Checked ε UInt8 := if b ≤ a then .ok (a - b) else crash .belowZero

/-- A byte moved up. -/
def shiftByteUp (b : UInt8) (count : Nat) : Checked ε UInt8 :=
  if count < 8 then .ok (b <<< UInt8.ofNat count) else crash .shiftTooFar

/-- A byte moved down. -/
def shiftByteDown (b : UInt8) (count : Nat) : Checked ε UInt8 :=
  if count < 8 then .ok (b >>> UInt8.ofNat count) else crash .shiftTooFar

/-! ## Arrays -/

/-- The element with an index. -/
def index (xs : List α) (i : Nat) : Checked ε α :=
  match xs[i]? with
  | some x => .ok x
  | none => crash .indexOutside

/-- The array with another element at an index. -/
def store (xs : List α) (i : Nat) (x : α) : Checked ε (List α) :=
  if i < xs.length then .ok (xs.set i x) else crash .indexOutside

/-- The elements from one index up to another. -/
def slice (xs : List α) (first last : Nat) : Checked ε (List α) :=
  if first ≤ last ∧ last ≤ xs.length then .ok ((xs.drop first).take (last - first))
  else crash .rangeOutside

/-- The elements before an index and those from it on. -/
def cut (xs : List α) (i : Nat) : Checked ε (List α × List α) :=
  if i ≤ xs.length then .ok (xs.take i, xs.drop i) else crash .rangeOutside

/-- The element with an index, and the array without it. -/
def remove (xs : List α) (i : Nat) : Checked ε (α × List α) :=
  match xs[i]? with
  | some x => .ok (x, xs.eraseIdx i)
  | none => crash .indexOutside

/-- Room for `count` elements of `size` bytes each.  `exhausted` is the outcome of every request above the
address space, also of one for elements that are still to come.  A processor does not answer such a
request with an error: it ends the computation, as where memory runs out. -/
def allocate (count size : Nat) : Checked ε Unit :=
  if count * size ≤ addressSpace then .ok () else .error .exhausted

/-- The array with other elements in the places from one index up to another, which has to be as many
places as there are elements. -/
def copyInto (xs : List α) (first last : Nat) (ys : List α) : Checked ε (List α) :=
  if first ≤ last ∧ last ≤ xs.length ∧ last - first = ys.length then
    .ok (xs.take first ++ ys ++ xs.drop last)
  else crash .rangeOutside

/-! ## Inside the domain -/

theorem add_of_lt {a b : Nat} (h : a + b < wordSize) : (add a b : Checked ε Nat) = .ok (a + b) :=
  if_pos h

theorem mul_of_lt {a b : Nat} (h : a * b < wordSize) : (mul a b : Checked ε Nat) = .ok (a * b) :=
  if_pos h

theorem sub_of_le {a b : Nat} (h : b ≤ a) : (sub a b : Checked ε Nat) = .ok (a - b) := if_pos h

theorem short_of_bounds {n : Int} (hlow : -0x8000 ≤ n) (hhigh : n ≤ 0x7fff) :
    (short n : Checked ε Int) = .ok n := by
  rw [short, if_neg (by omega), if_neg (by omega)]

theorem long_of_le {n : Nat} (h : n ≤ addressSpace) : (long n : Checked ε Int) = .ok n := if_pos h

theorem divide_of_ne_zero {a b : Int} (h : b ≠ 0) : (divide a b : Checked ε Int) = .ok (a.tdiv b) :=
  if_neg h

theorem remainder_of_ne_zero {a b : Int} (h : b ≠ 0) :
    (remainder a b : Checked ε Int) = .ok (a.tmod b) := if_neg h

theorem addByte_of_lt {a b : UInt8} (h : a.toNat + b.toNat < 256) :
    (addByte a b : Checked ε UInt8) = .ok (a + b) := if_pos h

theorem subByte_of_le {a b : UInt8} (h : b ≤ a) : (subByte a b : Checked ε UInt8) = .ok (a - b) :=
  if_pos h

theorem shiftByteUp_of_lt {b : UInt8} {count : Nat} (h : count < 8) :
    (shiftByteUp b count : Checked ε UInt8) = .ok (b <<< UInt8.ofNat count) := if_pos h

theorem shiftByteDown_of_lt {b : UInt8} {count : Nat} (h : count < 8) :
    (shiftByteDown b count : Checked ε UInt8) = .ok (b >>> UInt8.ofNat count) := if_pos h

theorem index_of_getElem? {xs : List α} {i : Nat} {x : α} (h : xs[i]? = some x) :
    (index xs i : Checked ε α) = .ok x := by
  rw [index, h]

theorem cut_of_le {xs : List α} {i : Nat} (h : i ≤ xs.length) :
    (cut xs i : Checked ε (List α × List α)) = .ok (xs.take i, xs.drop i) := if_pos h

theorem remove_of_getElem? {xs : List α} {i : Nat} {x : α} (h : xs[i]? = some x) :
    (remove xs i : Checked ε (α × List α)) = .ok (x, xs.eraseIdx i) := by
  rw [remove, h]

theorem store_of_lt {xs : List α} {i : Nat} {x : α} (h : i < xs.length) :
    (store xs i x : Checked ε (List α)) = .ok (xs.set i x) := if_pos h

theorem slice_of_le {xs : List α} {first last : Nat} (h : first ≤ last) (hlast : last ≤ xs.length) :
    (slice xs first last : Checked ε (List α)) = .ok ((xs.drop first).take (last - first)) :=
  if_pos ⟨h, hlast⟩

theorem copyInto_of_le {xs ys : List α} {first last : Nat} (h : first ≤ last)
    (hlast : last ≤ xs.length) (hlength : last - first = ys.length) :
    (copyInto xs first last ys : Checked ε (List α)) = .ok (xs.take first ++ ys ++ xs.drop last) :=
  if_pos ⟨h, hlast, hlength⟩

@[simp] theorem ok_bind (a : α) (f : α → Checked ε β) : ((.ok a : Checked ε α) >>= f) = f a := rfl

/-! ## The comparison with the program -/

/-- A computation on words and arrays has a related result, or refuses for the same cause. -/
inductive Agrees (R : α → β → Prop) : Checked ε α → Except ε β → Prop
  | ok {a : α} {b : β} (h : R a b) : Agrees R (.ok a) (.ok b)
  | refused (cause : ε) : Agrees R (refuse cause) (.error cause)

variable {R : α → β → Prop} {S : γ → δ → Prop} {x : Checked ε α} {y : Except ε β}

theorem Agrees.bind {f : α → Checked ε γ} {g : β → Except ε δ} (h : Agrees R x y)
    (hf : ∀ a b, R a b → Agrees S (f a) (g b)) : Agrees S (x >>= f) (y >>= g) := by
  cases h with
  | ok hab => exact hf _ _ hab
  | refused cause => exact .refused cause

/-- Computations that agree on equal results are the same computation. -/
theorem agrees_eq_iff {x : Checked ε α} {y : Except ε α} : Agrees Eq x y ↔ x = ofExcept y := by
  constructor
  · intro h
    cases h with
    | ok h => rw [h]; rfl
    | refused cause => rfl
  · rintro rfl
    cases y with
    | ok a => exact .ok rfl
    | error cause => exact .refused cause

/-- **A computation that agrees with the program does not crash.** -/
theorem Agrees.ne_crash (h : Agrees R x y) (c : Crash) : x ≠ crash c := by
  cases h <;> rintro ⟨⟩

/-! ## As far as memory reaches -/

variable {ample : Prop}

/-- A computation on words and arrays has the result of the program, which has the property, or refuses
for the same cause, or asks for an array that memory has no room for; the last only if memory is not
`ample`. -/
inductive Spared (ample : Prop) (Q : α → Prop) : Checked ε α → Except ε α → Prop
  | ok {a : α} (h : Q a) : Spared ample Q (.ok a) (.ok a)
  | refused (cause : ε) : Spared ample Q (refuse cause) (.error cause)
  | exhausted (h : ¬ample) (y : Except ε α) : Spared ample Q (.error .exhausted) y

theorem spared_ofExcept {y : Except ε α} {Q : α → Prop} (h : ∀ a, y = .ok a → Q a) :
    Spared ample Q (ofExcept y) y := by
  cases y with
  | ok a => exact .ok (h a rfl)
  | error cause => exact .refused cause

theorem Agrees.spared_bind {Q : γ → Prop} {f : α → Checked ε γ} {g : β → Except ε γ}
    (h : Agrees R x y) (hf : ∀ a b, R a b → y = .ok b → Spared ample Q (f a) (g b)) :
    Spared ample Q (x >>= f) (y >>= g) := by
  cases h with
  | ok hab => exact hf _ _ hab rfl
  | refused cause => exact .refused cause

theorem Spared.recast {Q : α → Prop} {x : Checked ε α} {y : Except ε α} (h : Spared ample Q x y)
    (f : ε → ε') : Spared ample Q (recast f x) (y.mapError f) := by
  cases h with
  | ok h => exact .ok h
  | refused cause => exact .refused (f cause)
  | exhausted h y => exact .exhausted h _

/-- Room for an array is there, or memory is exhausted. -/
theorem spared_allocate_bind {Q : α → Prop} {count size : Nat} {f : Unit → Checked ε α}
    {y : Except ε α} (hample : ample → count * size ≤ addressSpace)
    (hf : count * size ≤ addressSpace → Spared ample Q (f ()) y) :
    Spared ample Q (allocate count size >>= f) y := by
  rw [allocate]
  split
  · next hroom => exact hf hroom
  · next hroom => exact .exhausted (mt hample hroom) y

/-- **A computation that does what the program does, as far as memory reaches, does not crash.** -/
theorem Spared.ne_crash {x : Checked ε α} {y : Except ε α} {Q : α → Prop} (h : Spared ample Q x y)
    (c : Crash) : x ≠ crash c := by
  cases h <;> rintro ⟨⟩

/-- It has the outcome of the program, or memory is exhausted. -/
theorem Spared.exhausted_or_eq {x : Checked ε α} {y : Except ε α} {Q : α → Prop}
    (h : Spared ample Q x y) : ¬ample ∧ x = .error .exhausted ∨ x = ofExcept y := by
  cases h with
  | ok => exact .inr rfl
  | refused => exact .inr rfl
  | exhausted h => exact .inl ⟨h, rfl⟩

end Checked

end CoinScript
