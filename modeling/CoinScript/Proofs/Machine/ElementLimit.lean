import CoinScript.Proofs.Machine.Resources
import CoinScript.Proofs.Machine.Straight

/-!
# The limit on elements

No check stands between a product and the stack, so a product can be as long as both operands
together, and nothing relates the limit on operands to the limit on elements.

* `elements_of_step`: after every instruction that completes, the elements are within the limit or
  within twice the limit on operands, whichever is larger; they are within the limit itself where
  that has room for products, as it has for blocks, and where products are not enabled.
* `LongProduct`: under the wider limits the room is missing, and seven bytes of script make an
  element of a million and a half bytes, where a push stops at a million.

The run in the second part is followed for a number of any length (`LongProduct.comes_product`), and
its length is put in at the end, so no long element is ever written out.
-/

namespace CoinScript

/-! ## Instructions that make long elements -/

namespace Run

variable {r : Rules} {script : List Instruction} {first m : Machine} {offset operations : Nat}
  {main : Stack}

/-- `NUM2BIN` on nothing makes as many zeros as are asked for. -/
theorem Comes.zeros {a : Bytes} {k : Nat}
    (h : Comes r script first offset (a :: [] :: main) operations)
    (hi : script[offset]? = some ⟨0x80, none⟩) (hcount : operations + 1 ≤ r.limits.maxOps)
    (hstack : main.length + 1 ≤ r.limits.maxStackSize) (hgate : r.flags.has .extendedA = true)
    (ha : Number.decode r.numberFormat a = .ok k) (hk : k ≤ r.limits.maxElementSize)
    (hword : k < 2 ^ 63) :
    Comes r script first (offset + 1) (List.replicate k 0 :: main) (operations + 1) := by
  have hlets : r.Lets ⟨0x80, none⟩ (a :: [] :: main).length operations :=
    lets_of_bare (by decide) hgate hcount (Nat.le_add_left 2 _)
  refine h.step hi hlets (fun m hm => ?_) hstack
  refine ⟨{ m with main := List.replicate k 0 :: main }, ?_, holds_main hm _⟩
  have hzeros : (if ([] : Bytes).length = k then [] else Number.widen k []) = List.replicate k 0 := by
    by_cases hzero : ([] : Bytes).length = k
    · rw [if_pos hzero, ← hzero]
      rfl
    · rw [if_neg hzero]
      rfl
  have hsize : (Number.clamp 64 (k : Int)).toNat = k := by
    rw [Number.clamp_natCast hword, Int.toNat_natCast]
  show numToBin r m = _
  unfold numToBin
  rw [bind_of_ok (popNumber_of_main hm.main ha), bind_of_ok (pop_eq rfl),
    require_bind_of_true (decide_eq_true (Int.natCast_nonneg k))]
  dsimp only
  rw [hsize, require_bind_of_true (decide_eq_true hk)]
  show (require (decide (0 ≤ k)) _ >>= fun _ => _) _ = _
  rw [require_bind_of_true (decide_eq_true (Nat.zero_le k))]
  show Run.push (if ([] : Bytes).length = k then [] else Number.widen k []) _ = _
  rw [hzeros]
  rfl

/-- `INVERT`. -/
theorem Comes.invert {a : Bytes} (h : Comes r script first offset (a :: main) operations)
    (hi : script[offset]? = some ⟨0x83, none⟩) (hcount : operations + 1 ≤ r.limits.maxOps)
    (hstack : main.length + 1 ≤ r.limits.maxStackSize) (hgate : r.flags.has .extendedB = true) :
    Comes r script first (offset + 1) (a.map (~~~ ·) :: main) (operations + 1) := by
  have hlets : r.Lets ⟨0x83, none⟩ (a :: main).length operations :=
    lets_of_bare (by decide) hgate hcount (Nat.le_add_left 1 _)
  refine h.step hi hlets (fun m hm => ?_) hstack
  refine ⟨{ m with main := a.map (~~~ ·) :: main }, ?_, holds_main hm _⟩
  show (pop >>= fun b => Run.push (b.map (~~~ ·))) m = _
  rw [bind_of_ok (pop_eq hm.main)]
  rfl

/-- `MUL`: whatever the limit on elements, the product is put on the stack. -/
theorem Comes.mul {x y : Bytes} {a b : Int}
    (h : Comes r script first offset (y :: x :: main) operations)
    (hi : script[offset]? = some ⟨0x95, none⟩) (hcount : operations + 1 ≤ r.limits.maxOps)
    (hstack : main.length + 1 ≤ r.limits.maxStackSize) (hgate : r.flags.has .extendedB = true)
    (hx : Number.decode r.numberFormat x = .ok a) (hy : Number.decode r.numberFormat y = .ok b) :
    Comes r script first (offset + 1) (Number.encode (a * b) :: main) (operations + 1) := by
  have hlets : r.Lets ⟨0x95, none⟩ (y :: x :: main).length operations :=
    lets_of_bare (by decide) hgate hcount (Nat.le_add_left 2 _)
  refine h.step hi hlets (fun m hm => ?_) hstack
  refine ⟨{ m with main := Number.encode (a * b) :: main }, ?_, holds_main hm _⟩
  have hpop : popTwoNumbers r m = .ok (a, b) { m with main } := by
    unfold popTwoNumbers
    rw [bind_of_ok (popNumber_of_main hm.main hy), bind_of_ok (popNumber_of_main rfl hx)]
    rfl
  show (popTwoNumbers r >>= fun ab => pushNumber (BinaryOp.mul.eval ab.1 ab.2)) m = _
  rw [bind_of_ok hpop]
  rfl

end Run

/-! ## The bound -/

namespace Rules

/-- What is asked of the limits for no operation but the product to go beyond a size. -/
theorem roomy_of_limits {r : Rules} {size : Nat} (hdigest : 32 ≤ r.limits.maxElementSize)
    (hsum : r.limits.maxNumberLength < r.limits.maxElementSize)
    (hword : r.limits.maxStackSize < 2 ^ 64) (helement : r.limits.maxElementSize ≤ size)
    (hproduct : r.flags.has .extendedB = true → 2 * r.limits.maxNumberLength ≤ size) :
    r.Roomy size where
  element := helement
  digest := Nat.le_trans hdigest helement
  sum := Nat.lt_of_lt_of_le hsum helement
  product := hproduct
  depth := by
    have hnine : Number.Fits 9 r.limits.maxStackSize := by
      unfold Number.Fits
      rw [Int.natAbs_natCast]
      exact Nat.lt_of_lt_of_le (Nat.mul_lt_mul_of_pos_left hword (by decide)) (by decide)
    exact hnine.mono (Nat.le_trans (Nat.le_trans (by decide) hdigest) helement)

end Rules

namespace Run

variable {r : Rules} {unlocking locking s : Script} {script : List Instruction}
  {start first m after : Machine} {i : Instruction} {offset size : Nat}

/-- The elements stay within a size for which the rules have room, from the first machine of a spend
on. -/
theorem within_of_step (hr : r.Roomy size) (hstart : start.Ready (r.limits.upTo size))
    (hbegins : Begins r unlocking locking start s first)
    (hreaches : Reaches r (Script.scan s).1 first offset m)
    (hstep : step r (Script.scan s).1 offset i m = .ok () after) :
    ∀ b ∈ after.main ++ after.alt, b.length ≤ size := by
  obtain ⟨found, hfound⟩ := accounted_within hr (ready_within hr hstart hbegins) hreaches
  have hbounded := bounded_step hr hfound.bounded
    (Nat.le_trans (Nat.le_add_right _ _) hfound.depth) hstep
  intro b hb
  exact (List.mem_append.mp hb).elim (hbounded.main b) (hbounded.alt b)

end Run

/-- **How long elements get**, after every instruction that completes, under all flags, for all
scripts and all transactions.  Without room for a product, and with products enabled, the limit on
elements is not a bound; twice the limit on operands is one. -/
theorem elements_of_step (r e : Rules) (unlocking locking s : Script) (first m after : Machine)
    (offset : Nat) (i : Instruction) (hdigest : 32 ≤ r.limits.maxElementSize)
    (hsum : r.limits.maxNumberLength < r.limits.maxElementSize)
    (hword : r.limits.maxStackSize < 2 ^ 64) (he : r.effective = .ok e)
    (hbegins : Run.Begins e unlocking locking (.begun r unlocking locking) s first)
    (hreaches : Run.Reaches e (Script.scan s).1 first offset m)
    (hstep : Run.step e (Script.scan s).1 offset i m = .ok () after) :
    (∀ b ∈ after.main ++ after.alt,
      b.length ≤ max r.limits.maxElementSize (2 * r.limits.maxNumberLength)) ∧
    (2 * r.limits.maxNumberLength ≤ r.limits.maxElementSize ∨ r.flags.has .extendedB = false →
      ∀ b ∈ after.main ++ after.alt, b.length ≤ r.limits.maxElementSize) := by
  have hlimits : e.limits = r.limits := Rules.limits_of_effective he
  have hflag : e.flags.has .extendedB = r.flags.has .extendedB :=
    Rules.has_eq_of_effective he (by decide)
  have hroomy : ∀ size, r.limits.maxElementSize ≤ size →
      (r.flags.has .extendedB = true → 2 * r.limits.maxNumberLength ≤ size) → e.Roomy size := by
    intro size helement hproduct
    rw [← hlimits] at hdigest hsum hword helement hproduct
    rw [← hflag] at hproduct
    exact Rules.roomy_of_limits hdigest hsum hword helement hproduct
  constructor
  · exact Run.within_of_step
      (hroomy _ (Nat.le_max_left _ _) fun _ => Nat.le_max_right _ _)
      (Run.ready_begun _ r unlocking locking) hbegins hreaches hstep
  · intro hroom
    refine Run.within_of_step (hroomy _ (Nat.le_refl _) fun henabled => ?_)
      (Run.ready_begun _ r unlocking locking) hbegins hreaches hstep
    rcases hroom with hroom | hdisabled
    · exact hroom
    · rw [hdisabled] at henabled
      cases henabled

/-! ## A product that is too long -/

namespace LongProduct

/-- The wider limits, with the operations enabled that later rules added. -/
def rules : Rules := ⟨.relaxed, ⟨0xc000⟩, .secp256k1, none, 0⟩

/-- The number 750000, as an operand. -/
def size : Bytes := [0xb0, 0x71, 0x0b]

/-- So many zeros, inverted and squared, and a comparison of the length with a million. -/
def locking : Script :=
  [0x00, 0x03, 0xb0, 0x71, 0x0b, 0x80, 0x83, 0x76, 0x95, 0x82, 0x03, 0x40, 0x42, 0x0f, 0xa0]

def instructions : List Instruction :=
  [.push [], .push size, ⟨0x80, none⟩, ⟨0x83, none⟩, ⟨0x76, none⟩, ⟨0x95, none⟩, ⟨0x82, none⟩,
    .push [0x40, 0x42, 0x0f], ⟨0xa0, none⟩]

theorem scan_locking : Script.scan locking = (instructions, []) := by decide +kernel

/-- The factor stands twice on the stack when the product is made.  Its length is a variable here,
so that it is not computed. -/
theorem comes_factors {first : Machine} (halt : first.alt = []) (hmain : first.main = []) {k : Nat}
    (hsize : Number.decode rules.numberFormat size = .ok k)
    (hk : k ≤ rules.limits.maxElementSize) (hword : k < 2 ^ 63) :
    Run.Comes rules instructions first 5 [List.replicate k 0xff, List.replicate k 0xff] 3 := by
  have hstart : Run.Comes rules instructions first 0 [] 0 := hmain ▸ Run.comes_start halt
  have hones : (List.replicate k (0 : UInt8)).map (~~~ ·) = List.replicate k 0xff :=
    List.map_replicate
  have hempty : Run.Comes rules instructions first 1 [[]] 0 :=
    hstart.pushMinimal rfl rfl (Nat.zero_le _) (Nat.zero_le _) (by decide)
  have hpushed : Run.Comes rules instructions first 2 [size, []] 0 :=
    hempty.push rfl (by decide) (by decide) (Nat.zero_le _) (by decide)
  have hzeros : Run.Comes rules instructions first 3 [List.replicate k 0] 1 :=
    hpushed.zeros rfl (by decide) (by decide) (by decide) hsize hk hword
  have hinverted := hzeros.invert rfl (by decide) (by decide) (by decide)
  rw [hones] at hinverted
  exact hinverted.dup rfl (by decide) (by decide)

/-- The product has as many bytes as both factors together. -/
theorem comes_product {first : Machine} (halt : first.alt = []) (hmain : first.main = []) {k : Nat}
    (hsize : Number.decode rules.numberFormat size = .ok ((k + 1 : Nat) : Int))
    (hk : k + 1 ≤ rules.limits.maxNumberLength) :
    ∃ b, 2 * (k + 1) ≤ b.length ∧ Run.Comes rules instructions first 6 [b] 4 := by
  have helement : k + 1 ≤ rules.limits.maxElementSize := Nat.le_trans hk (by decide)
  have hfactors := comes_factors halt hmain hsize helement (Nat.lt_of_le_of_lt hk (by decide))
  have hdecode : Number.decode rules.numberFormat (List.replicate (k + 1) 0xff) =
      .ok (Number.value (List.replicate (k + 1) 0xff)) :=
    Number.decode_of_length_le rfl (by rwa [List.length_replicate])
  exact ⟨_, Number.le_length_encode_square k,
    hfactors.mul rfl (by decide) (by decide) (by decide) hdecode hdecode⟩

/-- The run comes to the product, and it is made. -/
theorem exists_product :
    ∃ first m after, Run.Begins rules [] locking (.begun rules [] locking) locking first ∧
      Run.Reaches rules (Script.scan locking).1 first 5 m ∧
      Run.step rules (Script.scan locking).1 5 ⟨0x95, none⟩ m = .ok () after ∧
      ∃ b ∈ after.main ++ after.alt, 1500000 ≤ b.length := by
  have hsize : Number.decode rules.numberFormat size = .ok ((749999 + 1 : Nat) : Int) := by
    decide +kernel
  have hscan : (Script.scan locking).1 = instructions := by rw [scan_locking]
  obtain ⟨b, hlength, after, hreaches, hholds⟩ : ∃ b, 2 * (749999 + 1) ≤ b.length ∧
      Run.Comes rules instructions (Machine.begun rules [] locking).afresh 6 [b] 4 :=
    comes_product rfl rfl hsize (Nat.le_refl _)
  have hunlocks : Run.script rules (Script.scan []).1 (.begun rules [] locking) =
      .ok () (Machine.begun rules [] locking).afresh := by
    rw [Script.scan_of_none rfl]
    rfl
  have hbegins : Run.Begins rules [] locking (.begun rules [] locking) locking
      (Machine.begun rules [] locking).afresh :=
    .locking (by rw [scan_locking]) hunlocks
  rw [hscan]
  cases hreaches with
  | @next _ m _ i hfactors hi hstep _ =>
    cases hi
    refine ⟨_, m, after, hbegins, hfactors, hstep, b, ?_, hlength⟩
    rw [hholds.main]
    exact List.mem_append_left _ (List.mem_singleton_self b)

/-- **The limit on elements does not bound what is produced**: after the product, an element is
longer. -/
theorem beyond_limit :
    32 ≤ rules.limits.maxElementSize ∧ rules.limits.maxNumberLength < rules.limits.maxElementSize ∧
    ∃ first m after, Run.Begins rules [] locking (.begun rules [] locking) locking first ∧
      Run.Reaches rules (Script.scan locking).1 first 5 m ∧
      Run.step rules (Script.scan locking).1 5 ⟨0x95, none⟩ m = .ok () after ∧
      ∃ b ∈ after.main ++ after.alt, rules.limits.maxElementSize < b.length := by
  obtain ⟨first, m, after, hbegins, hreaches, hstep, b, hb, hlength⟩ := exists_product
  exact ⟨by decide, by decide, first, m, after, hbegins, hreaches, hstep, b, hb,
    Nat.lt_of_lt_of_le (by decide) hlength⟩

/-- Twice the limit on operands is attained by the product; and a small number under the limits for
blocks is an element within their limit. -/
theorem elements_at_product :
    (∃ first m after, Run.Begins rules [] locking (.begun rules [] locking) locking first ∧
      Run.Reaches rules (Script.scan locking).1 first 5 m ∧
      Run.step rules (Script.scan locking).1 5 ⟨0x95, none⟩ m = .ok () after ∧
      ∃ b ∈ after.main ++ after.alt,
        b.length = max rules.limits.maxElementSize (2 * rules.limits.maxNumberLength)) ∧
    ∃ after, Run.step OwnSignature.rules (Script.scan [0x51]).1 0 ⟨0x51, none⟩
        (Machine.begun OwnSignature.rules [0x51] []).afresh = .ok () after ∧
      after.main = [[1]] ∧
      ∀ b ∈ after.main ++ after.alt, b.length ≤ OwnSignature.rules.limits.maxElementSize := by
  constructor
  · obtain ⟨first, m, after, hbegins, hreaches, hstep, b, hb, hlength⟩ := exists_product
    obtain ⟨hbound, -⟩ := elements_of_step rules rules [] locking locking first m after 5
      ⟨0x95, none⟩ (by decide) (by decide) (by decide) rfl hbegins hreaches hstep
    exact ⟨first, m, after, hbegins, hreaches, hstep, b, hb, Nat.le_antisymm (hbound b hb) hlength⟩
  · have hstep : Run.step OwnSignature.rules (Script.scan [0x51]).1 0 ⟨0x51, none⟩
        (Machine.begun OwnSignature.rules [0x51] []).afresh = .ok () _ := rfl
    obtain ⟨-, hbound⟩ := elements_of_step OwnSignature.rules OwnSignature.rules [0x51] [] [0x51] _ _
      _ 0 ⟨0x51, none⟩ (by decide) (by decide) (by decide) rfl (.unlocking (by decide +kernel))
      .start hstep
    exact ⟨_, hstep, rfl, hbound (.inl (by decide))⟩

end LongProduct

end CoinScript
