import CoinScript.Bytes.Lemmas
import CoinScript.Proofs.Checked.Position
import CoinScript.Proofs.Number.ShortestForm
import CoinScript.Signature.Der

/-!
# Signatures read by position

The readers of signatures, lax and strict, on an array: a position moves through the bytes, lengths
come from the bytes themselves, and every element and every range is taken by its index.

* `readLax` reads as `Signature.ofDerLax` does (`readLax_agrees`);
* `splitStrict` checks as `Der.split` does (`splitStrict_agrees`).

The lax reader is the one with room for mistakes.  A long length is announced by the input and may
claim more bytes than there are; leading zeros of it are passed over one by one, and the rest is put
together in a word, which holds it because at most seven bytes are left.
-/

namespace CoinScript.Checked

variable {ε : Type} {bytes octets rest b : Bytes} {pos count value : Nat} {first : UInt8}

/-! ## The first bit of a byte -/

theorem highBit_iff : Der.highBit first = true ↔ 128 ≤ first.toNat :=
  decide_eq_true_iff.trans Number.sign_le_iff

theorem and_eq_zero_iff (first : UInt8) : first &&& 0x80 = 0 ↔ Der.highBit first = false := by
  rw [← UInt8.toNat_inj, Number.toNat_and_sign, ← Bool.not_eq_true, highBit_iff]
  change 128 * (first.toNat / 128) = 0 ↔ _
  omega

/-- The other bits. -/
theorem toNat_and_of_highBit (h : Der.highBit first = true) :
    (first &&& 0x7f).toNat = first.toNat - 0x80 := by
  have hle := highBit_iff.mp h
  have hfirst : first.toNat < 256 := first.toNat_lt
  rw [Number.toNat_and_digits]
  omega

/-! ## Lengths -/

/-- Past the zeros in front of `octets` bytes: how many bytes are left, and where they start. -/
def skipZeros (bytes : Bytes) : (octets pos : Nat) → Checked ε (Nat × Nat)
  | 0, pos => return (0, pos)
  | octets + 1, pos => do
    if (← index bytes pos) = 0 then skipZeros bytes octets (← add pos 1)
    else return (octets + 1, pos)

/-- The number that `octets` big-endian bytes continue, and the position after them. -/
def bigEndian (bytes : Bytes) : (octets pos value : Nat) → Checked ε (Nat × Nat)
  | 0, pos, value => return (value, pos)
  | octets + 1, pos, value => do
    let b ← index bytes pos
    bigEndian bytes octets (← add pos 1) ((value <<< 8) % wordSize ||| b.toNat)

/-- A length in either form, and the position after it. -/
def readLength (which : Component) (bytes : Bytes) (pos : Nat) : Checked DerError (Nat × Nat) :=
  match bytes[pos]? with
  | none => refuse (.integerLengthOverflow which)
  | some first => do
    let pos ← add pos 1
    if first &&& 0x80 = 0 then return (first.toNat, pos)
    else
      let octets := (first &&& 0x7f).toNat
      if (← sub bytes.length pos) < octets then refuse (.integerLengthOverflow which)
      else
        let (octets, pos) ← skipZeros bytes octets pos
        if 8 ≤ octets then refuse (.integerLengthOverflow which)
        else bigEndian bytes octets pos 0

/-- What the loop over the zeros leaves. -/
theorem skipZeros_eq (ε : Type) (h : At bytes pos (octets ++ rest))
    (hword : bytes.length < wordSize) :
    ∃ pos', (skipZeros bytes octets.length pos : Checked ε (Nat × Nat)) =
        .ok ((octets.dropWhile (· == 0)).length, pos') ∧
      At bytes pos' (octets.dropWhile (· == 0) ++ rest) := by
  induction octets generalizing pos with
  | nil => exact ⟨pos, rfl, h⟩
  | cons x octets ih =>
    rw [List.cons_append] at h
    rw [List.length_cons, skipZeros, h.index_head, ok_bind, List.dropWhile_cons]
    by_cases hx : x = 0
    · have hnext : (add pos 1 : Checked ε Nat) = .ok (pos + 1) :=
        h.add (by rw [List.length_cons]; omega) hword
      rw [if_pos hx, hnext, ok_bind, if_pos (by simpa using hx)]
      exact ih h.tail
    · rw [if_neg hx, if_neg (by simpa using hx)]
      exact ⟨pos, rfl, h⟩

theorem shiftLeft_or {value : Nat} (h : value * 256 < wordSize) (b : UInt8) :
    (value <<< 8) % wordSize ||| b.toNat = value * 256 + b.toNat := by
  have hbyte : b.toNat < 2 ^ 8 := b.toNat_lt
  have hshift : value <<< 8 = value * 256 := Nat.shiftLeft_eq value 8
  rw [hshift, Nat.mod_eq_of_lt h, ← hshift, Nat.shiftLeft_add_eq_or_of_lt hbyte]

/-- What the loop over the remaining bytes gives, as long as the number is a word. -/
theorem bigEndian_eq (ε : Type) (h : At bytes pos (octets ++ rest))
    (hword : bytes.length < wordSize)
    (hvalue : value * 256 ^ octets.length + Bytes.toNatBE octets < wordSize) :
    ∃ pos', (bigEndian bytes octets.length pos value : Checked ε (Nat × Nat)) =
        .ok (value * 256 ^ octets.length + Bytes.toNatBE octets, pos') ∧ At bytes pos' rest := by
  induction octets generalizing pos value with
  | nil =>
    refine ⟨pos, ?_, h⟩
    simp [bigEndian, Bytes.toNatBE, Bytes.toNatLE, pure, Except.pure]
  | cons x octets ih =>
    have hfirst : value * 256 ^ (octets.length + 1) + Bytes.toNatBE (x :: octets) =
        (value * 256 + x.toNat) * 256 ^ octets.length + Bytes.toNatBE octets := by
      rw [Bytes.toNatBE_cons, Nat.pow_succ]
      ring
    have hnext : (add pos 1 : Checked ε Nat) = .ok (pos + 1) :=
      h.add (by rw [List.cons_append, List.length_cons]; omega) hword
    have hroom : value * 256 < wordSize := by
      have hpow : 0 < 256 ^ octets.length := Nat.pow_pos (by decide)
      have hle := Nat.le_mul_of_pos_right (value * 256 + x.toNat) hpow
      rw [List.length_cons, hfirst] at hvalue
      omega
    rw [List.length_cons, hfirst] at hvalue ⊢
    rw [bigEndian, h.index_head, ok_bind, hnext, ok_bind, shiftLeft_or hroom]
    exact ih h.tail hvalue

/-- Seven bytes fit into a word. -/
theorem bigEndian_of_lt (ε : Type) (h : At bytes pos (octets ++ rest))
    (hword : bytes.length < wordSize) (hseven : octets.length < 8) :
    ∃ pos', (bigEndian bytes octets.length pos 0 : Checked ε (Nat × Nat)) =
        .ok (Bytes.toNatBE octets, pos') ∧ At bytes pos' rest := by
  have hle : 256 ^ octets.length ≤ 256 ^ 7 := Nat.pow_le_pow_right (by decide) (by omega)
  have hvalue : Bytes.toNatBE octets < wordSize :=
    Nat.lt_of_lt_of_le (Bytes.toNatBE_lt octets) (Nat.le_trans hle (by decide))
  have hroom : 0 * 256 ^ octets.length + Bytes.toNatBE octets < wordSize := by simpa using hvalue
  simpa using bigEndian_eq ε h hword hroom

theorem readLength_agrees (which : Component) (h : At bytes pos rest)
    (hword : bytes.length < wordSize) :
    Agrees (SamePlace bytes) (readLength which bytes pos) (Der.laxLength which rest) := by
  match rest, h with
  | [], h =>
    have hend : bytes[pos]? = none := h.getElem? 0
    rw [readLength, hend]
    exact .refused _
  | first :: rest, h =>
    have hnext : (add pos 1 : Checked DerError Nat) = .ok (pos + 1) :=
      h.add (by rw [List.length_cons]; omega) hword
    rw [readLength, h.getElem?_head, Der.laxLength]
    dsimp only
    rw [hnext, ok_bind]
    by_cases hshort : Der.highBit first = false
    · rw [if_pos hshort, if_pos ((and_eq_zero_iff first).mpr hshort)]
      exact agrees_samePlace _ h.tail
    · have hoctets := toNat_and_of_highBit ((Bool.not_eq_false _).mp hshort)
      rw [if_neg hshort, if_neg (mt (and_eq_zero_iff first).mp hshort), h.tail.sub, ok_bind, hoctets]
      split
      · exact .refused _
      next hfits =>
      have hlength : (rest.take (first.toNat - 0x80)).length = first.toNat - 0x80 :=
        List.length_take_of_le (Nat.not_lt.mp hfits)
      have hsplit := h.tail
      rw [← List.take_append_drop (first.toNat - 0x80) rest] at hsplit
      obtain ⟨start, hskip, hstart⟩ := skipZeros_eq DerError hsplit hword
      rw [hlength] at hskip
      rw [hskip, ok_bind]
      dsimp only
      split
      · exact .refused _
      next hseven =>
      obtain ⟨last, hread, hlast⟩ := bigEndian_of_lt DerError hstart hword (Nat.not_le.mp hseven)
      rw [hread]
      exact agrees_samePlace _ hlast

/-! ## Integers -/

/-- An integer in the lax form, and the position after it. -/
def readInteger (which : Component) (bytes : Bytes) (pos : Nat) : Checked DerError (Bytes × Nat) :=
  if bytes[pos]? ≠ some Der.integerTag then refuse (.missingIntegerTag which)
  else do
    let (length, pos) ← readLength which bytes (← add pos 1)
    if (← sub bytes.length pos) < length then refuse (.integerLengthOverflow which)
    else
      let next ← add pos length
      return (← slice bytes pos next, next)

/-- The 32 bytes of an integer, leading zeros not counted. -/
def readScalar (which : Component) (b : Bytes) : Checked DerError Bytes := do
  let significant ← slice b (b.findIdx (· != 0)) b.length
  if 32 < significant.length then refuse (.integerTooLarge which)
  else copyInto (List.replicate 32 0) (← sub 32 significant.length) 32 significant

theorem readInteger_agrees (which : Component) (h : At bytes pos rest)
    (hword : bytes.length < wordSize) :
    Agrees (SamePlace bytes) (readInteger which bytes pos) (Der.laxInteger which rest) := by
  match rest, h with
  | [], h =>
    have hend : bytes[pos]? = none := h.getElem? 0
    rw [readInteger, hend, if_pos (by simp)]
    exact .refused _
  | tag :: rest, h =>
    have hnext : (add pos 1 : Checked DerError Nat) = .ok (pos + 1) :=
      h.add (by rw [List.length_cons]; omega) hword
    rw [readInteger, h.getElem?_head, Der.laxInteger]
    by_cases htag : tag = Der.integerTag
    · rw [if_neg (by simp [htag]), if_neg (by simp [htag]), hnext, ok_bind]
      refine (readLength_agrees which h.tail hword).bind ?_
      rintro ⟨length, start⟩ ⟨_, body⟩ ⟨rfl, hbody⟩
      dsimp only at hbody ⊢
      rw [hbody.sub, ok_bind]
      split
      · exact .refused _
      next hfits =>
      have hfits : length ≤ body.length := Nat.not_lt.mp hfits
      rw [hbody.add hfits hword, ok_bind, hbody.slice hfits]
      exact agrees_samePlace _ (hbody.skip hfits)
    · rw [if_pos (by simpa using htag), if_pos htag]
      exact .refused _

theorem readScalar_agrees (which : Component) (b : Bytes) :
    Agrees (fun bytes n => bytes = Signature.scalarBytes n) (readScalar which b)
      (Der.value which b) := by
  have hslice : (slice b (b.findIdx (· != 0)) b.length : Checked DerError Bytes) =
      .ok (b.dropWhile (· == 0)) := by
    rw [slice_of_le List.findIdx_le_length (Nat.le_refl _), ← List.length_drop, List.take_length,
      List.dropWhile_eq_drop_findIdx_not]
    rfl
  rw [readScalar, hslice, ok_bind, Der.value]
  generalize b.dropWhile (· == 0) = significant
  split
  · exact .refused _
  next hlong =>
  have hlong : significant.length ≤ 32 := Nat.not_lt.mp hlong
  rw [sub_of_le hlong, ok_bind, copyInto_of_le (Nat.sub_le _ _) (by simp) (by omega)]
  refine .ok ?_
  have hlength : (List.replicate (32 - significant.length) 0 ++ significant).length = 32 := by
    simp only [List.length_append, List.length_replicate]
    omega
  have hvalue : Bytes.toNatBE (List.replicate (32 - significant.length) 0 ++ significant) =
      Bytes.toNatBE significant := Bytes.toNatBE_replicate_append _ _
  have hlt : Bytes.toNatBE significant < 2 ^ 256 :=
    Nat.lt_of_lt_of_le (Bytes.toNatBE_lt significant)
      (Nat.pow_le_pow_right (by decide) hlong)
  have hbytes := Bytes.ofNatBE_toNatBE (List.replicate (32 - significant.length) 0 ++ significant)
  rw [hlength, hvalue] at hbytes
  rw [Signature.scalarBytes, BitVec.toNat_ofNat, Nat.mod_eq_of_lt hlt, hbytes, List.take_replicate,
    List.drop_replicate, Nat.min_eq_left (Nat.sub_le _ _), Nat.sub_self, List.replicate_zero,
    List.append_nil]

/-! ## The lax reader -/

/-- The position after the outer tag and length in the lax form. -/
def skipHeader (bytes : Bytes) : Checked DerError Nat :=
  if bytes.head? ≠ some Der.sequenceTag then
    refuse (if bytes = [] then .tooShort else .invalidSequenceTag)
  else
    match bytes[1]? with
    | none => refuse .tooShort
    | some length => do
      let pos ← add 1 1
      if length &&& 0x80 = 0 then return pos
      else
        let octets := (length &&& 0x7f).toNat
        if (← sub bytes.length pos) < octets then refuse .sequenceLengthMismatch
        else add pos octets

/-- Reads a signature in the lax form, as the 32 bytes of its two numbers. -/
def readLax (bytes : Bytes) : Checked DerError (Bytes × Bytes) := do
  let pos ← skipHeader bytes
  let (r, pos) ← readInteger .r bytes pos
  let (s, _) ← readInteger .s bytes pos
  return (← readScalar .r r, ← readScalar .s s)

theorem skipHeader_agrees (hword : b.length < wordSize) :
    Agrees (At b) (skipHeader b) (Der.laxBody b) := by
  match b, hword with
  | [], _ => exact .refused _
  | tag :: rest, hword =>
    rw [skipHeader, Der.laxBody.eq_def]
    dsimp only
    by_cases htag : tag = Der.sequenceTag
    · rw [if_neg (by simp [htag]), if_neg (by simp [htag])]
      match rest, hword with
      | [], _ => exact .refused _
      | length :: body, hword =>
        have hplace : At (tag :: length :: body) 2 body := (At.zero _).tail.tail
        have hnext : (add 1 1 : Checked DerError Nat) = .ok 2 := rfl
        dsimp only [List.getElem?_cons_succ, List.getElem?_cons_zero]
        rw [hnext, ok_bind]
        by_cases hshort : Der.highBit length = false
        · rw [if_pos hshort, if_pos ((and_eq_zero_iff length).mpr hshort)]
          exact .ok hplace
        · rw [if_neg hshort, if_neg (mt (and_eq_zero_iff length).mp hshort), hplace.sub, ok_bind,
            toNat_and_of_highBit ((Bool.not_eq_false _).mp hshort)]
          split
          · exact .refused _
          next hfits =>
          rw [hplace.add (Nat.not_lt.mp hfits) hword]
          exact .ok (hplace.skip (Nat.not_lt.mp hfits))
    · rw [if_pos (by simpa using htag), if_pos htag, if_neg (List.cons_ne_nil _ _)]
      exact .refused _

/-- The 32 bytes of each of the two numbers. -/
def blocks (sig : Signature) : Bytes × Bytes :=
  (Signature.scalarBytes sig.r, Signature.scalarBytes sig.s)

/-- **The lax reader on an array reads what the program reads**, and never crashes. -/
theorem readLax_agrees (hword : b.length < wordSize) :
    Agrees (fun parts sig => parts = blocks sig) (readLax b) (Signature.ofDerLax b) := by
  refine (skipHeader_agrees hword).bind fun pos body hbody => ?_
  refine (readInteger_agrees .r hbody hword).bind ?_
  rintro ⟨r, pos⟩ ⟨_, afterR⟩ ⟨rfl, hafter⟩
  refine (readInteger_agrees .s hafter hword).bind ?_
  rintro ⟨s, pos⟩ ⟨_, afterS⟩ ⟨rfl, -⟩
  refine (readScalar_agrees .r r).bind ?_
  rintro _ n rfl
  refine (readScalar_agrees .s s).bind ?_
  rintro _ k rfl
  exact .ok rfl

/-! ## The strict reader -/

/-- The first bytes of an integer in the strict form. -/
def checkInteger (which : Component) (body : Bytes) : Checked DerError Unit := do
  if (← index body 0) &&& 0x80 ≠ 0 then refuse (.negativeInteger which)
  else if 1 < body.length then
    if (← index body 0) = 0 then
      if (← index body 1) &&& 0x80 = 0 then refuse (.excessivePadding which)

/-- An integer in the strict form, and the position after it. -/
def readStrictInteger (which : Component) (bytes : Bytes) (pos : Nat) :
    Checked DerError (Bytes × Nat) := do
  if bytes.length < (← add pos 2) then refuse (.integerLengthOverflow which)
  else if (← index bytes pos) ≠ Der.integerTag then refuse (.missingIntegerTag which)
  else
    let length := (← index bytes (← add pos 1)).toNat
    if length = 0 then refuse (.zeroLengthInteger which)
    else
      let start ← add pos 2
      let last ← add start length
      if bytes.length < last then refuse (.integerLengthOverflow which)
      else
        let body ← slice bytes start last
        checkInteger which body
        return (body, last)

/-- Checks the strict form; the result is the bytes of the two integers. -/
def splitStrict (bytes : Bytes) : Checked DerError (Bytes × Bytes) := do
  if bytes.length < 8 then refuse .tooShort
  else if 72 < bytes.length then refuse .tooLong
  else if (← index bytes 0) ≠ Der.sequenceTag then refuse .invalidSequenceTag
  else
    let last ← add 2 (← index bytes 1).toNat
    if bytes.length < last then refuse .sequenceLengthMismatch
    else if last < bytes.length then refuse .trailingBytes
    else
      let (r, afterR) ← readStrictInteger .r bytes 2
      let (s, afterS) ← readStrictInteger .s bytes afterR
      if afterS ≠ bytes.length then refuse .trailingBytes
      else return (r, s)

theorem checkInteger_singleton (which : Component) (x : UInt8) :
    checkInteger which [x] =
      if Der.highBit x then refuse (.negativeInteger which) else .ok () := by
  rw [checkInteger, index_of_getElem? (List.getElem?_cons_zero ..), ok_bind]
  cases hx : Der.highBit x with
  | true => rw [if_pos (mt (and_eq_zero_iff x).mp (by simp [hx])), if_pos rfl]
  | false =>
    rw [if_neg (not_not.mpr ((and_eq_zero_iff x).mpr hx))]
    rfl

theorem checkInteger_cons_cons (which : Component) (x y : UInt8) (body : Bytes) :
    checkInteger which (x :: y :: body) =
      if Der.highBit x then refuse (.negativeInteger which)
      else if x = 0 ∧ Der.highBit y = false then refuse (.excessivePadding which)
      else .ok () := by
  rw [checkInteger, index_of_getElem? (List.getElem?_cons_zero ..), ok_bind]
  cases hx : Der.highBit x with
  | true => rw [if_pos (mt (and_eq_zero_iff x).mp (by simp [hx])), if_pos rfl]
  | false =>
    rw [if_neg (not_not.mpr ((and_eq_zero_iff x).mpr hx)), if_pos (by simp), ok_bind,
      if_neg Bool.false_ne_true]
    by_cases hzero : x = 0
    · rw [if_pos hzero, index_of_getElem? (x := y) rfl, ok_bind]
      simp only [and_eq_zero_iff, hzero, true_and]
      rfl
    · rw [if_neg hzero, if_neg (mt And.left hzero)]
      rfl

theorem readStrictInteger_agrees (which : Component) (h : At bytes pos rest)
    (hsize : bytes.length ≤ 72) :
    Agrees (SamePlace bytes) (readStrictInteger which bytes pos)
      (Der.strictInteger which rest) := by
  have hplace := h.add_length
  have hadd (p n : Nat) (hp : p + n < 0x1000) : (add p n : Checked DerError Nat) = .ok (p + n) :=
    add_of_lt (Nat.lt_trans hp (by decide))
  rw [readStrictInteger, hadd pos 2 (by omega), ok_bind]
  match rest, h, hplace with
  | [], _, hplace =>
    rw [List.length_nil] at hplace
    rw [if_pos (by omega)]
    exact .refused _
  | [tag], _, hplace =>
    rw [List.length_singleton] at hplace
    rw [if_pos (by omega)]
    exact .refused _
  | tag :: length :: rest, h, hplace =>
    simp only [List.length_cons] at hplace
    have hbyte : length.toNat < 256 := length.toNat_lt
    rw [if_neg (by omega), h.index_head, ok_bind, Der.strictInteger]
    by_cases htag : tag = Der.integerTag
    · have hzero : length = 0 ↔ length.toNat = 0 := by rw [← UInt8.toNat_inj]; rfl
      rw [if_neg (not_not.mpr htag), if_neg (not_not.mpr htag), hadd pos 1 (by omega), ok_bind,
        h.tail.index_head, ok_bind]
      dsimp only
      split
      · next hnone =>
        rw [if_pos (hzero.mpr hnone)]
        exact .refused _
      next hsome =>
      have hbody := h.tail.tail
      rw [if_neg (mt hzero.mp hsome), ok_bind, hadd (pos + 2) length.toNat (by omega), ok_bind]
      by_cases hfits : rest.length < length.toNat
      · rw [if_pos (by omega), if_pos hfits]
        exact .refused _
      · have hfits : length.toNat ≤ rest.length := Nat.not_lt.mp hfits
        rw [if_neg (by omega), if_neg (Nat.not_lt.mpr hfits), hbody.slice hfits, ok_bind]
        have hafter := hbody.skip hfits
        have hlength : (rest.take length.toNat).length = length.toNat :=
          List.length_take_of_le hfits
        generalize rest.take length.toNat = body at hlength
        match body, hlength with
        | [], hlength => exact absurd hlength.symm hsome
        | [x], _ =>
          rw [checkInteger_singleton]
          dsimp only
          split
          · exact .refused _
          · exact agrees_samePlace _ hafter
        | x :: y :: body, _ =>
          rw [checkInteger_cons_cons]
          dsimp only
          split
          · exact .refused _
          split
          · exact .refused _
          · exact agrees_samePlace _ hafter
    · rw [if_pos htag, if_pos htag]
      exact .refused _

/-- **The strict reader on an array checks what the program checks**, and never crashes. -/
theorem splitStrict_agrees (b : Bytes) : Agrees Eq (splitStrict b) (Der.split b) := by
  unfold splitStrict Der.split
  by_cases hshort : b.length < 8
  · rw [if_pos hshort, if_pos hshort]
    exact .refused _
  rw [if_neg hshort, if_neg hshort]
  by_cases hlong : 72 < b.length
  · rw [if_pos hlong, if_pos hlong]
    exact .refused _
  rw [if_neg hlong, if_neg hlong]
  match b, hshort, hlong with
  | [], hshort, _ => exact absurd (by decide) hshort
  | [x], hshort, _ => exact absurd (by simp) hshort
  | tag :: length :: body, _, hlong =>
    have hsize : (tag :: length :: body).length ≤ 72 := Nat.not_lt.mp hlong
    have hbyte : length.toNat < 256 := length.toNat_lt
    have hplace : At (tag :: length :: body) 2 body := (At.zero _).tail.tail
    have hadd : (add 2 length.toNat : Checked DerError Nat) = .ok (2 + length.toNat) :=
      add_of_lt (Nat.lt_trans (m := 258) (by omega) (by decide))
    have hcount : (tag :: length :: body).length = 2 + body.length := by
      rw [List.length_cons, List.length_cons]
      omega
    rw [index_of_getElem? (x := tag) rfl, ok_bind]
    dsimp only
    by_cases htag : tag = Der.sequenceTag
    · rw [if_neg (not_not.mpr htag), if_neg (not_not.mpr htag),
        index_of_getElem? (x := length) rfl, ok_bind, hadd, ok_bind]
      by_cases hmissing : body.length < length.toNat
      · rw [if_pos (by omega), if_pos hmissing]
        exact .refused _
      rw [if_neg (by omega), if_neg hmissing]
      by_cases htrailing : length.toNat < body.length
      · rw [if_pos (by omega), if_pos htrailing]
        exact .refused _
      rw [if_neg (by omega), if_neg htrailing]
      refine (readStrictInteger_agrees .r hplace hsize).bind ?_
      rintro ⟨r, pos⟩ ⟨_, afterR⟩ ⟨rfl, hafter⟩
      refine (readStrictInteger_agrees .s hafter hsize).bind ?_
      rintro ⟨s, pos⟩ ⟨_, afterS⟩ ⟨rfl, hlast⟩
      dsimp only at hlast ⊢
      by_cases hend : afterS = []
      · rw [if_neg (not_not.mpr (hlast.eq_length_iff.mpr hend)), if_neg (not_not.mpr hend)]
        exact .ok rfl
      · rw [if_pos (mt hlast.eq_length_iff.mp hend), if_pos hend]
        exact .refused _
    · rw [if_pos htag, if_pos htag]
      exact .refused _

end CoinScript.Checked
