import CoinScript.Proofs.Wire.Taking

/-!
# The written forms of a transaction

A transaction has many written forms, since each count and each length in it may be written in any
of the forms that can hold it.  `Transaction.layout` is the form with given widths, and
`Transaction.encode` is the one with the least widths (`encode_eq_layout`).

`wire_exact` says that reading and writing agree about these forms.

* A transaction that is written is read back, whatever follows it, except for the outputs that its
  inputs spend, which are not written.  Nothing may follow it where all of the data has to be a
  transaction, and nothing may be missing at its end.
* Data is read as a transaction exactly if it is one of its layouts.  The one that `encode` writes
  is the shortest of them, and it is the only one that has all widths least.

## How the accepted data is described

`reads_layout` and `layout_of_read` are the two directions for a reader that goes on.  The length of
a layout is fixed but for the widths (`length_layout`), which are least for `encode` one by one
(`Widths.total_least_le`).
-/

namespace CoinScript

namespace Output

/-- The bytes of an output, with the given width for the length of its script. -/
def layout (o : Output) (width : Nat) : Bytes :=
  Wire.u64 o.satoshis ++ (VarInt.encodeAs width o.script.length ++ o.script)

/-- The width can hold the length of the script. -/
def Fits (o : Output) (width : Nat) : Prop := VarInt.Fits width o.script.length

/-- The width in the form that is written. -/
def leastWidth (o : Output) : Nat := VarInt.size o.script.length

theorem encode_eq_layout (o : Output) : o.encode = o.layout o.leastWidth := by
  rw [layout, leastWidth, VarInt.encodeAs_size]
  rfl

theorem reads_layout (o : Output) (width : Nat) (h : o.Fits width) :
    Reader.Reads read (o.layout width) o :=
  ((Reader.reads_u64 o.satoshis).mapError _).bind
    ((((Reader.reads_varInt h).bind (Reader.reads_take rfl)).mapError _).map _)

theorem layout_of_read (c : Cursor) (o : Output) (c' : Cursor) (h : read c = .ok o c') :
    ∃ width, o.Fits width ∧ c.rest = o.layout width ++ c'.rest := by
  obtain ⟨satoshis, c₁, hsatoshis, h₁⟩ := bind_eq_ok h
  obtain ⟨script, c₂, hscript, hvalue⟩ := bind_eq_ok h₁
  cases hvalue
  obtain ⟨width, hfits, hrest⟩ := Reader.varBytes_eq_ok (Reader.mapError_eq_ok hscript)
  refine ⟨width, hfits, ?_⟩
  rw [Reader.u64_eq_ok (Reader.mapError_eq_ok hsatoshis), hrest]
  simp only [layout, List.append_assoc]

theorem length_layout (o : Output) (width : Nat) (h : o.Fits width) :
    (o.layout width).length = 8 + o.script.length + width := by
  rw [layout, List.length_append, List.length_append, VarInt.length_encodeAs h, Wire.length_u64]
  omega

end Output

namespace Input

/-- The bytes of an input, with the given width for the length of its script. -/
def layout (i : Input) (width : Nat) : Bytes :=
  i.outpoint.txid.bytes ++ (Wire.u32 i.outpoint.index ++
    ((VarInt.encodeAs width i.unlocking.length ++ i.unlocking) ++ Wire.u32 i.sequence))

/-- The width can hold the length of the script. -/
def Fits (i : Input) (width : Nat) : Prop := VarInt.Fits width i.unlocking.length

/-- The width in the form that is written. -/
def leastWidth (i : Input) : Nat := VarInt.size i.unlocking.length

/-- The input as it is read back. -/
def withoutSource (i : Input) : Input := { i with source := none }

theorem encode_eq_layout (i : Input) : i.encode = i.layout i.leastWidth := by
  rw [layout, leastWidth, VarInt.encodeAs_size]
  simp only [encode, Outpoint.encode, Wire.varBytes, List.append_assoc]

theorem reads_layout (i : Input) (width : Nat) (h : i.Fits width) :
    Reader.Reads read (i.layout width) i.withoutSource :=
  ((Reader.reads_block i.outpoint.txid).mapError _).bind <|
    ((Reader.reads_u32 i.outpoint.index).mapError _).bind <|
      (((Reader.reads_varInt h).bind (Reader.reads_take rfl)).mapError _).bind <|
        ((Reader.reads_u32 i.sequence).mapError _).map _

theorem layout_of_read (c : Cursor) (i : Input) (c' : Cursor) (h : read c = .ok i c') :
    ∃ width, (i.source = none ∧ i.Fits width) ∧ c.rest = i.layout width ++ c'.rest := by
  obtain ⟨txid, c₁, htxid, h₁⟩ := bind_eq_ok h
  obtain ⟨index, c₂, hindex, h₂⟩ := bind_eq_ok h₁
  obtain ⟨unlocking, c₃, hunlocking, h₃⟩ := bind_eq_ok h₂
  obtain ⟨sequence, c₄, hsequence, hvalue⟩ := bind_eq_ok h₃
  cases hvalue
  obtain ⟨width, hfits, hrest⟩ := Reader.varBytes_eq_ok (Reader.mapError_eq_ok hunlocking)
  refine ⟨width, ⟨rfl, hfits⟩, ?_⟩
  rw [Reader.block_eq_ok (Reader.mapError_eq_ok htxid),
    Reader.u32_eq_ok (Reader.mapError_eq_ok hindex), hrest,
    Reader.u32_eq_ok (Reader.mapError_eq_ok hsequence)]
  simp only [layout, List.append_assoc]

theorem length_layout (i : Input) (width : Nat) (h : i.Fits width) :
    (i.layout width).length = 40 + i.unlocking.length + width := by
  simp only [layout, List.length_append, VarInt.length_encodeAs h, Wire.length_u32,
    Block.length_bytes]
  omega

end Input

namespace Transaction

/-- The widths of the counts and lengths of a transaction. -/
structure Widths where
  /-- Of the number of inputs. -/
  inputs : Nat
  /-- Of the lengths of the scripts of the inputs, in their order. -/
  unlocking : List Nat
  /-- Of the number of outputs. -/
  outputs : Nat
  /-- Of the lengths of the scripts of the outputs, in their order. -/
  locking : List Nat
deriving DecidableEq

/-- Each width can hold its count or length. -/
structure Widths.Fit (ws : Widths) (tx : Transaction) : Prop where
  inputs : VarInt.Fits ws.inputs tx.inputs.length
  unlocking : List.Forall₂ Input.Fits tx.inputs ws.unlocking
  outputs : VarInt.Fits ws.outputs tx.outputs.length
  locking : List.Forall₂ Output.Fits tx.outputs ws.locking

/-- The widths of the shortest forms. -/
def Widths.least (tx : Transaction) : Widths :=
  ⟨VarInt.size tx.inputs.length, tx.inputs.map Input.leastWidth, VarInt.size tx.outputs.length,
    tx.outputs.map Output.leastWidth⟩

/-- The number of bytes that are spent on counts and lengths. -/
def Widths.total (ws : Widths) : Nat :=
  ws.inputs + ws.unlocking.sum + (ws.outputs + ws.locking.sum)

/-- The bytes of a transaction, with the given widths for the counts and lengths in it. -/
def layout (tx : Transaction) (ws : Widths) : Bytes :=
  Wire.u32 tx.version ++
    (VarInt.encodeAs ws.inputs tx.inputs.length ++
      (layoutAll Input.layout tx.inputs ws.unlocking ++
        (VarInt.encodeAs ws.outputs tx.outputs.length ++
          (layoutAll Output.layout tx.outputs ws.locking ++ Wire.u32 tx.lockTime))))

/-- The number of bytes that are not spent on counts and lengths. -/
def ownLength (tx : Transaction) : Nat :=
  8 + ((tx.inputs.map fun i => 40 + i.unlocking.length).sum +
    (tx.outputs.map fun o => 8 + o.script.length).sum)

/-- The transaction as it is read back: the outputs that are spent are not known. -/
def withoutSources (tx : Transaction) : Transaction :=
  { tx with inputs := tx.inputs.map Input.withoutSource }

/-- The counts and lengths are such that they can be written. -/
structure Writable (tx : Transaction) : Prop where
  inputs : tx.inputs.length < 2 ^ 64
  unlocking : ∀ i ∈ tx.inputs, i.unlocking.length < 2 ^ 64
  outputs : tx.outputs.length < 2 ^ 64
  locking : ∀ o ∈ tx.outputs, o.script.length < 2 ^ 64

variable {tx : Transaction} {ws : Widths}

/-! ## Layouts are read, and only layouts -/

theorem encode_eq_layout (tx : Transaction) : tx.encode = tx.layout (.least tx) := by
  have hinputs : Input.encode = fun i => i.layout i.leastWidth := funext Input.encode_eq_layout
  have houtputs : Output.encode = fun o => o.layout o.leastWidth :=
    funext Output.encode_eq_layout
  rw [layout, Widths.least, VarInt.encodeAs_size, VarInt.encodeAs_size, layoutAll_map,
    layoutAll_map, encode, hinputs, houtputs]
  simp only [List.append_assoc]

theorem Writable.fit_least (h : tx.Writable) : (Widths.least tx).Fit tx where
  inputs := VarInt.fits_size h.inputs
  unlocking := List.forall₂_map_right_iff.mpr
    (List.forall₂_same.mpr fun i hi => VarInt.fits_size (h.unlocking i hi))
  outputs := VarInt.fits_size h.outputs
  locking := List.forall₂_map_right_iff.mpr
    (List.forall₂_same.mpr fun o ho => VarInt.fits_size (h.locking o ho))

/-- Counts and lengths that some widths can hold can be written. -/
theorem Widths.Fit.writable (h : ws.Fit tx) : tx.Writable where
  inputs := VarInt.lt_of_fits h.inputs
  unlocking := ((List.forall₂_and_left _ _).mp
    (h.unlocking.imp fun _ _ hfits => ⟨VarInt.lt_of_fits hfits, hfits⟩)).1
  outputs := VarInt.lt_of_fits h.outputs
  locking := ((List.forall₂_and_left _ _).mp
    (h.locking.imp fun _ _ hfits => ⟨VarInt.lt_of_fits hfits, hfits⟩)).1

theorem reads_layout (h : ws.Fit tx) : Reader.Reads read (tx.layout ws) tx.withoutSources := by
  have hinputs := Reader.reads_many Input.reads_layout h.unlocking
  have houtputs : Reader.Reads _ (layoutAll Output.layout tx.outputs ws.locking)
      (tx.outputs.map fun o => o) := Reader.reads_many Output.reads_layout h.locking
  rw [List.map_id'] at houtputs
  refine ((Reader.reads_u32 tx.version).mapError _).bind ?_
  refine ((Reader.reads_varInt h.inputs).mapError _).bind ?_
  refine hinputs.bind ?_
  refine ((Reader.reads_varInt h.outputs).mapError _).bind ?_
  refine houtputs.bind ?_
  exact ((Reader.reads_u32 tx.lockTime).mapError _).map _

/-- **What is read as a transaction is one of its layouts.** -/
theorem layout_of_read {c c' : Cursor} (h : read c = .ok tx c') :
    (∀ i ∈ tx.inputs, i.source = none) ∧
      ∃ ws : Widths, ws.Fit tx ∧ c.rest = tx.layout ws ++ c'.rest := by
  obtain ⟨version, c₁, hversion, h₁⟩ := bind_eq_ok h
  obtain ⟨inputCount, c₂, hinputCount, h₂⟩ := bind_eq_ok h₁
  obtain ⟨inputs, c₃, hinputs, h₃⟩ := bind_eq_ok h₂
  obtain ⟨outputCount, c₄, houtputCount, h₄⟩ := bind_eq_ok h₃
  obtain ⟨outputs, c₅, houtputs, h₅⟩ := bind_eq_ok h₄
  obtain ⟨lockTime, c₆, hlockTime, hvalue⟩ := bind_eq_ok h₅
  cases hvalue
  obtain ⟨inputWidth, hinputFits, hinputRest⟩ :=
    Reader.varInt_eq_ok (Reader.mapError_eq_ok hinputCount)
  obtain ⟨outputWidth, houtputFits, houtputRest⟩ :=
    Reader.varInt_eq_ok (Reader.mapError_eq_ok houtputCount)
  obtain ⟨rfl, unlocking, hunlocking, hinputsRest⟩ :=
    Reader.many_eq_ok Input.layout_of_read hinputs
  obtain ⟨rfl, locking, hlocking, houtputsRest⟩ :=
    Reader.many_eq_ok Output.layout_of_read houtputs
  obtain ⟨hsources, hunlocking⟩ := (List.forall₂_and_left _ _).mp hunlocking
  refine ⟨hsources, ⟨inputWidth, unlocking, outputWidth, locking⟩,
    ⟨hinputFits, hunlocking, houtputFits, hlocking⟩, ?_⟩
  rw [Reader.u32_eq_ok (Reader.mapError_eq_ok hversion), hinputRest, hinputsRest, houtputRest,
    houtputsRest, Reader.u32_eq_ok (Reader.mapError_eq_ok hlockTime)]
  simp only [layout, List.append_assoc]

/-! ## Lengths -/

theorem length_layout (h : ws.Fit tx) : (tx.layout ws).length = tx.ownLength + ws.total := by
  simp only [layout, List.length_append, Wire.length_u32, VarInt.length_encodeAs h.inputs,
    VarInt.length_encodeAs h.outputs, length_layoutAll Input.length_layout h.unlocking,
    length_layoutAll Output.length_layout h.locking]
  unfold ownLength Widths.total
  omega

/-- Widths that fit take at least as many bytes as the least widths, and more unless they are
these. -/
theorem Widths.total_least_le (h : ws.Fit tx) :
    (least tx).total ≤ ws.total ∧ (ws.total = (least tx).total → ws = least tx) := by
  have hinputs := VarInt.size_le_of_fits h.inputs
  have houtputs := VarInt.size_le_of_fits h.outputs
  obtain ⟨hunlocking, hunlockingEq⟩ :=
    sum_least_le (fun i width hfits => VarInt.size_le_of_fits (n := i.unlocking.length) hfits)
      h.unlocking
  obtain ⟨hlocking, hlockingEq⟩ :=
    sum_least_le (fun o width hfits => VarInt.size_le_of_fits (n := o.script.length) hfits)
      h.locking
  unfold total least Input.leastWidth Output.leastWidth
  dsimp only
  refine ⟨by omega, fun htotal => ?_⟩
  obtain ⟨inputs, unlocking, outputs, locking⟩ := ws
  dsimp only at *
  obtain rfl : inputs = VarInt.size tx.inputs.length := by omega
  obtain rfl : outputs = VarInt.size tx.outputs.length := by omega
  rw [hunlockingEq (by omega), hlockingEq (by omega)]

theorem length_encode_of_writable (h : tx.Writable) :
    tx.encode.length = tx.ownLength + (Widths.least tx).total := by
  rw [encode_eq_layout, length_layout h.fit_least]

/-- **The form that is written is the shortest**, and no layout with other widths is that short. -/
theorem length_encode_le (h : ws.Fit tx) :
    tx.encode.length ≤ (tx.layout ws).length ∧
      ((tx.layout ws).length = tx.encode.length → ws = .least tx) := by
  obtain ⟨hle, heq⟩ := Widths.total_least_le h
  rw [length_encode_of_writable h.writable, length_layout h]
  exact ⟨by omega, fun hlength => heq (by omega)⟩

/-! ## All of the data -/

theorem ofBytes_eq_ok {b : Bytes} (h : ofBytes b = .ok tx) :
    ∃ c, read (Cursor.start b) = .ok tx c ∧ c.rest = [] := by
  unfold ofBytes at h
  cases hread : read (Cursor.start b) with
  | ok tx' c =>
    rw [hread] at h
    dsimp only at h
    split at h
    · next hnone =>
      cases h
      exact ⟨c, rfl, List.length_eq_zero_iff.mp hnone⟩
    · cases h
  | error e c =>
    rw [hread] at h
    cases h

/-- A layout with nothing behind it is accepted. -/
theorem ofBytes_layout (h : ws.Fit tx) : ofBytes (tx.layout ws) = .ok tx.withoutSources := by
  have hread := reads_layout h 0 []
  rw [List.append_nil] at hread
  rw [ofBytes, Cursor.start, hread]
  rfl

/-- What stands behind a layout is counted. -/
theorem ofBytes_layout_append (h : ws.Fit tx) {rest : Bytes} (hrest : rest ≠ []) :
    ofBytes (tx.layout ws ++ rest) = .error (.trailing rest.length) := by
  rw [ofBytes, Cursor.start, reads_layout h 0 rest]
  exact if_neg fun hnone => hrest (List.length_eq_zero_iff.mp hnone)

theorem withoutSources_of_none (h : ∀ i ∈ tx.inputs, i.source = none) : tx.withoutSources = tx := by
  have hinput : ∀ i ∈ tx.inputs, i.withoutSource = i := by
    intro i hi
    unfold Input.withoutSource
    rw [← h i hi]
  have hinputs : tx.inputs.map Input.withoutSource = tx.inputs :=
    (List.map_congr_left hinput).trans (List.map_id' _)
  unfold withoutSources
  rw [hinputs]

/-- **Which data is a transaction.** -/
theorem ofBytes_eq_ok_iff {b : Bytes} : ofBytes b = .ok tx ↔
    (∀ i ∈ tx.inputs, i.source = none) ∧ ∃ ws : Widths, ws.Fit tx ∧ b = tx.layout ws := by
  constructor
  · intro h
    obtain ⟨c, hread, hrest⟩ := ofBytes_eq_ok h
    obtain ⟨hsources, ws, hfit, hb⟩ := layout_of_read hread
    rw [hrest, List.append_nil] at hb
    exact ⟨hsources, ws, hfit, hb⟩
  · rintro ⟨hsources, ws, hfit, rfl⟩
    rw [ofBytes_layout hfit, withoutSources_of_none hsources]

/-- No part of what is read as a transaction can be missing at its end. -/
theorem eq_layout_of_start {b : Bytes} {tx' : Transaction} (hfit : ws.Fit tx)
    (hstart : b <+: tx.layout ws) (hb : ofBytes b = .ok tx') : b = tx.layout ws := by
  obtain ⟨-, ws', hfit', rfl⟩ := ofBytes_eq_ok_iff.mp hb
  obtain ⟨rest, hrest⟩ := hstart
  have hsame : tx'.layout ws' ++ rest = tx.layout ws ++ [] := by rw [hrest, List.append_nil]
  obtain ⟨-, rfl⟩ := (reads_layout hfit').inj (reads_layout hfit) hsame
  rwa [List.append_nil] at hrest

/-- **Reading and writing of transactions agree.**  What is written for a transaction is read back,
whatever follows it, and is not accepted with more or less at its end.  Data is accepted as a
transaction exactly if it is a layout of it; the layout that is written is the shortest of these,
and writing what was read gives the data back exactly if all its widths are least. -/
theorem wire_exact :
    (∀ tx : Transaction, tx.Writable →
      Reader.Reads read tx.encode tx.withoutSources ∧
      ofBytes tx.encode = .ok tx.withoutSources ∧
      (∀ rest, rest ≠ [] → ofBytes (tx.encode ++ rest) = .error (.trailing rest.length)) ∧
      ∀ b, b <+: tx.encode → b ≠ tx.encode → ∃ e, ofBytes b = .error e) ∧
    ∀ (b : Bytes) (tx : Transaction), (∀ i ∈ tx.inputs, i.source = none) →
      (ofBytes b = .ok tx ↔ ∃ ws : Widths, ws.Fit tx ∧ b = tx.layout ws) ∧
      (ofBytes b = .ok tx → ofBytes tx.encode = .ok tx ∧ tx.encode.length ≤ b.length ∧
        (b.length = tx.encode.length → b = tx.encode)) ∧
      ∀ ws : Widths, ws.Fit tx → b = tx.layout ws → (tx.encode = b ↔ ws = .least tx) := by
  refine ⟨fun tx h => ?_, fun b tx hsources => ?_⟩
  · have hfit := h.fit_least
    rw [encode_eq_layout]
    refine ⟨reads_layout hfit, ofBytes_layout hfit, fun rest => ofBytes_layout_append hfit,
      fun b hstart hne => ?_⟩
    cases hb : ofBytes b with
    | error e => exact ⟨e, rfl⟩
    | ok tx' => exact absurd (eq_layout_of_start hfit hstart hb) hne
  · refine ⟨by rw [ofBytes_eq_ok_iff, and_iff_right hsources], fun h => ?_, fun ws hfit hb => ?_⟩
    · obtain ⟨-, ws, hfit, rfl⟩ := ofBytes_eq_ok_iff.mp h
      obtain ⟨hle, heq⟩ := length_encode_le hfit
      have hwritten := ofBytes_layout hfit.writable.fit_least
      rw [← encode_eq_layout, withoutSources_of_none hsources] at hwritten
      refine ⟨hwritten, hle, fun hlength => ?_⟩
      rw [heq hlength, encode_eq_layout]
    · subst hb
      refine ⟨fun heq => (length_encode_le hfit).2 (congrArg List.length heq.symm), ?_⟩
      rintro rfl
      exact encode_eq_layout tx

namespace LongForms

/-- A transaction with one input and one output, both with scripts of one byte. -/
def spend : Transaction :=
  ⟨1, [⟨⟨.zero 32, 0⟩, [0x51], Input.defaultSequence, none⟩], [⟨5, [0x52]⟩], 0⟩

/-- Widths of which three are longer than needed. -/
def widths : Widths := ⟨3, [5], 1, [9]⟩

/-- The transaction is read back from what is written, with a byte behind it too unless all of the
data has to be the transaction, and it is accepted from a longer layout, which is not written
back. -/
theorem accepted_longer :
    Reader.Reads read spend.encode spend ∧
      ofBytes (spend.encode ++ [0]) = .error (.trailing 1) ∧
      (∃ e, ofBytes (spend.encode.take 10) = .error e) ∧
      ofBytes (spend.layout widths) = .ok spend ∧ spend.encode ≠ spend.layout widths := by
  have hwritable : spend.Writable := by
    refine ⟨by decide, ?_, by decide, ?_⟩ <;> simp [spend]
  have hsources : ∀ i ∈ spend.inputs, i.source = none := by simp [spend]
  have hfit : widths.Fit spend :=
    ⟨.inr (.inl ⟨rfl, by decide⟩), .cons (.inr (.inr (.inl ⟨rfl, by decide⟩))) .nil,
      .inl ⟨rfl, by decide⟩, .cons (.inr (.inr (.inr ⟨rfl, by decide⟩))) .nil⟩
  obtain ⟨hreads, -, hmore, hless⟩ := wire_exact.1 spend hwritable
  obtain ⟨hiff, -, hleast⟩ := wire_exact.2 (spend.layout widths) spend hsources
  refine ⟨hreads, hmore [0] (by decide), hless _ (List.take_prefix 10 _) (by decide),
    hiff.mpr ⟨widths, hfit, rfl⟩, fun heq => ?_⟩
  exact absurd ((hleast widths hfit rfl).mp heq) (by decide)

end LongForms

end Transaction

end CoinScript
