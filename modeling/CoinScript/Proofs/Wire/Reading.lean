import CoinScript.Bytes.Lemmas
import CoinScript.Proofs.Sequencing
import CoinScript.Transaction.Wire

/-!
# What is written is read back

A reader *reads* a byte string if, on any data that starts with it, it takes exactly that string and
gives the value it was written for.  The notion is closed under sequencing, so a reader built from
parts reads what is written part by part.

* `varInt_eq`: after a marker as many bytes are read as the marker announces.
* `reads_varInt`: a count is read back from each of its forms that can hold it, and `encodeAs_size`
  says which of them is the shortest.
* `reads_varBytes` and `reads_output`: byte strings behind their length, and outputs.

## Unique readability

Two strings that a reader reads cannot be confused, whatever follows them (`Reads.inj`).  This is
what makes a list of items that are written one after the other, without a count, readable in one
way only (`flatMap_injOn`): `PrefixFree` is the property of the items that is needed.
-/

namespace CoinScript

namespace Reader

variable {ε δ α β : Type}

/-- On data that starts with `b` the reader takes exactly `b` and gives `a`. -/
def Reads (r : Reader ε α) (b : Bytes) (a : α) : Prop :=
  ∀ (position : Nat) (rest : Bytes), r ⟨position, b ++ rest⟩ = .ok a ⟨position + b.length, rest⟩

/-! ## Sequencing -/

theorem reads_pure (a : α) : Reads (pure a : Reader ε α) [] a := fun _ _ => rfl

theorem Reads.bind {r : Reader ε α} {f : α → Reader ε β} {b c : Bytes} {a : α} {x : β}
    (hr : Reads r b a) (hf : Reads (f a) c x) : Reads (r >>= f) (b ++ c) x := by
  intro position rest
  rw [List.append_assoc, bind_of_ok (hr position (c ++ rest)), hf, List.length_append,
    Nat.add_assoc]

/-- A last reading whose value is only repackaged. -/
theorem Reads.map {r : Reader ε α} {b : Bytes} {a : α} (hr : Reads r b a) (f : α → β) :
    Reads (r >>= fun a => pure (f a)) b (f a) := by
  have h : Reads (r >>= fun a => pure (f a)) (b ++ []) (f a) := hr.bind (reads_pure (f a))
  rwa [List.append_nil] at h

theorem Reads.mapError {r : Reader ε α} {b : Bytes} {a : α} (hr : Reads r b a) (f : ε → δ) :
    Reads (r.mapError f) b a := by
  intro position rest
  rw [Reader.mapError, hr position rest]

/-- **Two strings that are read are not confused.** -/
theorem Reads.inj {r : Reader ε α} {b c rest rest' : Bytes} {a x : α} (hb : Reads r b a)
    (hc : Reads r c x) (h : b ++ rest = c ++ rest') : a = x ∧ rest = rest' := by
  have h₁ := hb 0 rest
  rw [h, hc 0 rest'] at h₁
  injection h₁ with ha hs
  injection hs with _ hrest
  exact ⟨ha.symm, hrest.symm⟩

/-! ## Fixed sizes -/

theorem reads_take {b : Bytes} {n : Nat} (h : b.length = n) : Reads (take n) b b := by
  intro position rest
  have hle : n ≤ (b ++ rest).length := by
    rw [List.length_append]
    omega
  rw [take_of_le hle, Cursor.advance, ← h, List.take_left, List.drop_left]

theorem number_of_le {w : Nat} {c : Cursor} (h : w ≤ c.rest.length) :
    number w c = .ok (Bytes.toNatLE (c.rest.take w)) (c.advance w) := by
  unfold number
  rw [bind_of_ok (take_of_le h)]
  rfl

theorem number_of_lt {w : Nat} {c : Cursor} (h : c.rest.length < w) :
    number w c = .error .unexpectedEnd c := by
  unfold number
  rw [bind_of_error (take_of_lt h)]

/-- A number that is read fits the bytes that it is read from, so it may be cut off to as many. -/
theorem number_map {w : Nat} {f : Nat → Nat} (h : ∀ n, n < 256 ^ w → f n = n) :
    (number w >>= fun n => pure (f n)) = number w := by
  funext c
  by_cases hfits : w ≤ c.rest.length
  · have hlt := Bytes.toNatLE_lt (c.rest.take w)
    rw [List.length_take_of_le hfits] at hlt
    rw [bind_of_ok (number_of_le hfits), h _ hlt, number_of_le hfits]
    rfl
  · rw [bind_of_error (number_of_lt (Nat.not_le.mp hfits)), number_of_lt (Nat.not_le.mp hfits)]

theorem reads_number {w n : Nat} (h : n < 256 ^ w) : Reads (number w) (Bytes.ofNatLE w n) n := by
  have hr := (reads_take (Bytes.length_ofNatLE w n)).map Bytes.toNatLE
  rwa [Bytes.toNatLE_ofNatLE h] at hr

theorem reads_u8 (n : UInt8) : Reads u8 [n] n := by
  have h := (reads_number (w := 1) (n := n.toNat) n.toNat_lt).map UInt8.ofNat
  rw [UInt8.ofNat_toNat] at h
  have hb : Bytes.ofNatLE 1 n.toNat = [n] := by
    simp [Bytes.ofNatLE]
  rwa [hb] at h

theorem reads_u16 (n : UInt16) : Reads u16 (Wire.u16 n) n := by
  have h := (reads_number (w := 2) (n := n.toNat) n.toNat_lt).map UInt16.ofNat
  rwa [UInt16.ofNat_toNat] at h

theorem reads_u32 (n : UInt32) : Reads u32 (Wire.u32 n) n := by
  have h := (reads_number (w := 4) (n := n.toNat) n.toNat_lt).map UInt32.ofNat
  rwa [UInt32.ofNat_toNat] at h

theorem reads_u64 (n : UInt64) : Reads u64 (Wire.u64 n) n := by
  have h := (reads_number (w := 8) (n := n.toNat) n.toNat_lt).map UInt64.ofNat
  rwa [UInt64.ofNat_toNat] at h

theorem reads_block {n : Nat} (b : Block n) : Reads (block n) b.bytes b := by
  intro position rest
  have hle : n ≤ (b.bytes ++ rest).length := by
    rw [List.length_append, b.size_eq]
    omega
  have hb : (⟨(b.bytes ++ rest).take n, List.length_take_of_le hle⟩ : Block n) = b := by
    exact Block.ext (List.take_left' b.size_eq)
  show (if h : n ≤ (b.bytes ++ rest).length then _ else _) = _
  rw [dif_pos hle, hb, Cursor.advance, List.drop_left' b.size_eq, b.size_eq]

end Reader

/-! ## Counts -/

namespace VarInt

/-- The form of `width` bytes can hold `n`. -/
def Fits (width n : Nat) : Prop :=
  (width = 1 ∧ n < 0xfd) ∨ (width = 3 ∧ n < 2 ^ 16) ∨ (width = 5 ∧ n < 2 ^ 32) ∨
    (width = 9 ∧ n < 2 ^ 64)

/-- A byte that is the count itself is none of the markers. -/
theorem ne_marker {b : UInt8} (hb : b.toNat < 0xfd) (m : UInt8) (hm : 0xfd ≤ m.toNat) : b ≠ m := by
  rintro rfl
  omega

theorem size_cases (n : Nat) :
    (n < 0xfd ∧ size n = 1) ∨ (0xfd ≤ n ∧ n ≤ 0xffff ∧ size n = 3) ∨
      (0xffff < n ∧ n ≤ 0xffffffff ∧ size n = 5) ∨ (0xffffffff < n ∧ size n = 9) := by
  by_cases h1 : n < 0xfd
  · have hm : marker n = UInt8.ofNat n := if_pos h1
    have hlt : (UInt8.ofNat n).toNat < 0xfd := by
      rw [UInt8.toNat_ofNat']
      omega
    refine Or.inl ⟨h1, ?_⟩
    rw [size, hm, markedSize, if_neg (ne_marker hlt 0xff (by decide)),
      if_neg (ne_marker hlt 0xfe (by decide)), if_neg (ne_marker hlt 0xfd (by decide))]
  · by_cases h3 : n ≤ 0xffff
    · refine Or.inr (Or.inl ⟨by omega, h3, ?_⟩)
      rw [size, marker, if_neg h1, if_pos h3]
      rfl
    · by_cases h5 : n ≤ 0xffffffff
      · refine Or.inr (Or.inr (Or.inl ⟨by omega, h5, ?_⟩))
        rw [size, marker, if_neg h1, if_neg h3, if_pos h5]
        rfl
      · refine Or.inr (Or.inr (Or.inr ⟨by omega, ?_⟩))
        rw [size, marker, if_neg h1, if_neg h3, if_neg h5]
        rfl

/-- A first byte is the count itself or one of the three markers. -/
theorem markedSize_cases (marker : UInt8) :
    (marker.toNat < 0xfd ∧ markedSize marker = 1) ∨ marker = 0xfd ∨ marker = 0xfe ∨
      marker = 0xff := by
  unfold markedSize
  split_ifs with h₁ h₂ h₃
  · exact .inr (.inr (.inr h₁))
  · exact .inr (.inr (.inl h₂))
  · exact .inr (.inl h₃)
  · have hne : ∀ m : UInt8, marker ≠ m → marker.toNat ≠ m.toNat := fun m h heq =>
      h (UInt8.toNat_inj.mp heq)
    have hlt := marker.toNat_lt
    have h₁ : marker.toNat ≠ 0xff := hne 0xff h₁
    have h₂ : marker.toNat ≠ 0xfe := hne 0xfe h₂
    have h₃ : marker.toNat ≠ 0xfd := hne 0xfd h₃
    exact .inl ⟨by omega, rfl⟩

/-- The shortest form can hold the number. -/
theorem fits_size {n : Nat} (h : n < 2 ^ 64) : Fits (size n) n := by
  rcases size_cases n with ⟨h1, hs⟩ | ⟨_, h3, hs⟩ | ⟨_, h5, hs⟩ | ⟨_, hs⟩ <;>
    · rw [hs, Fits]
      omega

/-- The form of the shortest width is the shortest form. -/
theorem encodeAs_size (n : Nat) : encodeAs (size n) n = encode n := by
  rcases size_cases n with ⟨h1, hs⟩ | ⟨h2, h3, hs⟩ | ⟨h4, h5, hs⟩ | ⟨h6, hs⟩
  · rw [encode_eq, hs, marker, if_pos h1]
    rfl
  · rw [encode_eq, hs, marker, if_neg (by omega), if_pos h3]
    rfl
  · rw [encode_eq, hs, marker, if_neg (by omega), if_neg (by omega), if_pos h5]
    rfl
  · rw [encode_eq, hs, marker, if_neg (by omega), if_neg (by omega), if_neg (by omega)]
    rfl

theorem length_encodeAs {width n : Nat} (h : Fits width n) :
    (encodeAs width n).length = width := by
  rcases h with ⟨rfl, _⟩ | ⟨rfl, _⟩ | ⟨rfl, _⟩ | ⟨rfl, _⟩ <;> simp [encodeAs]

end VarInt

namespace Reader

open VarInt

/-! Words of the three sizes, read as numbers. -/

theorem u16_toNat : (do return (← u16).toNat) = number 2 := by
  simp only [u16, bind_assoc, pure_bind]
  exact number_map fun n h => UInt16.toNat_ofNat_of_lt' h

theorem u32_toNat : (do return (← u32).toNat) = number 4 := by
  simp only [u32, bind_assoc, pure_bind]
  exact number_map fun n h => UInt32.toNat_ofNat_of_lt' h

theorem u64_toNat : (do return (← u64).toNat) = number 8 := by
  simp only [u64, bind_assoc, pure_bind]
  exact number_map fun n h => UInt64.toNat_ofNat_of_lt' h

/-- **The reader takes as many bytes as the marker announces.**  It goes through the markers by itself,
and reads a word of the size that the marker stands for. -/
theorem varInt_eq : varInt = (do
    let marker ← u8
    if markedSize marker = 1 then return marker.toNat else number (markedSize marker - 1)) := by
  unfold varInt
  refine bind_congr fun marker => ?_
  rcases markedSize_cases marker with ⟨hlt, hone⟩ | rfl | rfl | rfl
  · rw [if_neg (ne_marker hlt 0xff (by decide)), if_neg (ne_marker hlt 0xfe (by decide)),
      if_neg (ne_marker hlt 0xfd (by decide)), if_pos hone]
  · exact u16_toNat
  · exact u32_toNat
  · exact u64_toNat

/-- A marker that announces more bytes is followed by a number of that many bytes. -/
theorem reads_marked {marker : UInt8} {w n : Nat} (hm : markedSize marker = w + 1) (hw : w ≠ 0)
    (hn : n < 256 ^ w) : Reads varInt (marker :: Bytes.ofNatLE w n) n := by
  rw [varInt_eq]
  refine (reads_u8 marker).bind (c := Bytes.ofNatLE w n) ?_
  show Reads (if markedSize marker = 1 then pure marker.toNat else number (markedSize marker - 1))
    (Bytes.ofNatLE w n) n
  rw [if_neg (by omega), hm, Nat.add_sub_cancel]
  exact reads_number hn

/-- **A count is read back from every form that can hold it.** -/
theorem reads_varInt {width n : Nat} (h : Fits width n) : Reads varInt (encodeAs width n) n := by
  rcases h with ⟨rfl, hn⟩ | ⟨rfl, hn⟩ | ⟨rfl, hn⟩ | ⟨rfl, hn⟩
  · have hb : (UInt8.ofNat n).toNat = n := by
      rw [UInt8.toNat_ofNat']
      omega
    have hm : marker n = UInt8.ofNat n := if_pos hn
    have hs : markedSize (UInt8.ofNat n) = 1 := by
      rcases size_cases n with ⟨_, hs⟩ | ⟨h, _⟩ | ⟨h, _⟩ | ⟨h, _⟩
      · rwa [size, hm] at hs
      all_goals omega
    rw [varInt_eq]
    refine (reads_u8 (UInt8.ofNat n)).bind (c := []) ?_
    show Reads (if markedSize (UInt8.ofNat n) = 1 then pure (UInt8.ofNat n).toNat else _) [] n
    rw [if_pos hs, hb]
    exact reads_pure n
  · exact reads_marked (w := 2) rfl (by decide) (by omega)
  · exact reads_marked (w := 4) rfl (by decide) (by omega)
  · exact reads_marked (w := 8) rfl (by decide) (by omega)

/-- The shortest form is one of them. -/
theorem reads_encode {n : Nat} (h : n < 2 ^ 64) : Reads varInt (encode n) n := by
  rw [← encodeAs_size]
  exact reads_varInt (fits_size h)

/-- A byte string is read back from behind its length. -/
theorem reads_varBytes {b : Bytes} (h : b.length < 2 ^ 64) :
    Reads varBytes (Wire.varBytes b) b :=
  (reads_encode h).bind (reads_take rfl)

theorem reads_output {o : Output} (h : o.script.length < 2 ^ 64) :
    Reads Output.read o.encode o :=
  ((reads_u64 o.satoshis).mapError _).bind (((reads_varBytes h).mapError _).map _)

end Reader

/-! ## Items without a count -/

/-- Items that satisfy `s` are written so that the end of one can be told whatever follows it. -/
def PrefixFree {α : Type} (s : α → Prop) (f : α → Bytes) : Prop :=
  ∀ a b, s a → s b → ∀ rest rest', f a ++ rest = f b ++ rest' → a = b ∧ rest = rest'

section

variable {ε α : Type} {s : α → Prop} {f : α → Bytes}

theorem prefixFree_of_reads {r : Reader ε α} (h : ∀ a, s a → r.Reads (f a) a) :
    PrefixFree s f := by
  intro a b ha hb rest rest' heq
  exact (h a ha).inj (h b hb) heq

/-- **A list of items is determined by what is written one after the other.** -/
theorem PrefixFree.flatMap_injOn (hf : PrefixFree s f) (hne : ∀ a, s a → f a ≠ []) :
    ∀ {l k : List α}, (∀ a ∈ l, s a) → (∀ a ∈ k, s a) → l.flatMap f = k.flatMap f → l = k
  | [], [], _, _, _ => rfl
  | [], b :: _, _, hk, h => by
    rw [List.flatMap_nil, List.flatMap_cons] at h
    exact absurd (List.append_eq_nil_iff.mp h.symm).1 (hne b (hk b (List.mem_cons_self ..)))
  | a :: _, [], hl, _, h => by
    rw [List.flatMap_nil, List.flatMap_cons] at h
    exact absurd (List.append_eq_nil_iff.mp h).1 (hne a (hl a (List.mem_cons_self ..)))
  | a :: l, b :: k, hl, hk, h => by
    rw [List.flatMap_cons, List.flatMap_cons] at h
    obtain ⟨rfl, hrest⟩ :=
      hf a b (hl a (List.mem_cons_self ..)) (hk b (List.mem_cons_self ..)) _ _ h
    rw [hf.flatMap_injOn hne (fun x hx => hl x (List.mem_cons_of_mem _ hx))
      (fun x hx => hk x (List.mem_cons_of_mem _ hx)) hrest]

end

/-- An outpoint, with a reader of its own, as inputs and preimages begin with one. -/
theorem prefixFree_outpoint : PrefixFree (fun _ => True) Outpoint.encode := by
  intro a b _ _ rest rest' h
  have hlen : a.encode.length = b.encode.length := by
    simp [Outpoint.encode]
  obtain ⟨hab, hrest⟩ := List.append_inj h hlen
  obtain ⟨htxid, hindex⟩ := List.append_inj hab (by simp)
  have hword : Wire.u32 a.index ++ [] = Wire.u32 b.index ++ [] := by rw [hindex]
  have hindex' : a.index = b.index :=
    ((Reader.reads_u32 a.index).inj (Reader.reads_u32 b.index) hword).1
  obtain ⟨t, i⟩ := a
  obtain ⟨t', i'⟩ := b
  obtain rfl : t = t' := Block.ext htxid
  obtain rfl : i = i' := hindex'
  exact ⟨rfl, hrest⟩

theorem prefixFree_u32 : PrefixFree (fun _ => True) Wire.u32 :=
  prefixFree_of_reads fun n _ => Reader.reads_u32 n

theorem prefixFree_output :
    PrefixFree (fun o : Output => o.script.length < 2 ^ 64) Output.encode :=
  prefixFree_of_reads fun _ h => Reader.reads_output h

end CoinScript
