import CoinScript.Proofs.Wire.Reading
import CoinScript.Sighash.Preimage

/-!
# Preimages are read back

Writing the fields of a preimage and reading them again gives the same preimage, for every width of
the length in front of the script that can hold this length (`ofBytes_encode`).  Two such preimages
with the same bytes are therefore equal in every field (`encode_inj`), although the script in the
middle may have any length.
-/

namespace CoinScript.Preimage

open Reader

/-- The width of the length in front of the script can hold the length of the script. -/
def WidthFits (p : Preimage) : Prop := VarInt.Fits p.lengthWidth p.scriptCode.length

/-- The reader of a script behind its length also tells how long the length was: the difference of
the two places, less the script itself. -/
theorem reads_readScript {width : Nat} {code : Bytes} (h : VarInt.Fits width code.length) :
    Reads readScript (VarInt.encodeAs width code.length ++ code) (width, code) := by
  intro position rest
  have hv : Reads varBytes (VarInt.encodeAs width code.length ++ code) code :=
    (reads_varInt h).bind (reads_take rfl)
  have hread := hv position rest
  have hlen : (VarInt.encodeAs width code.length ++ code).length = width + code.length := by
    rw [List.length_append, VarInt.length_encodeAs h]
  rw [hlen] at hread ⊢
  have hwidth : position + (width + code.length) - position - code.length = width := by omega
  show EStateM.bind varBytes (fun script after =>
    .ok (after.position - position - script.length, script) after) _ = _
  unfold EStateM.bind
  rw [hread]
  show EStateM.Result.ok (position + (width + code.length) - position - code.length, code) _ = _
  rw [hwidth]

/-- The fields are read one after the other, in the order in which they are written. -/
theorem reads_read {p : Preimage} (h : p.WidthFits) : Reads read p.encode p := by
  have hparts : p.encode = Wire.u32 p.version ++ (p.prevoutsHash.bytes ++
      (p.sequenceHash.bytes ++ (p.outpoint.txid.bytes ++ (Wire.u32 p.outpoint.index ++
      ((VarInt.encodeAs p.lengthWidth p.scriptCode.length ++ p.scriptCode) ++
      (Wire.u64 p.amount ++ (Wire.u32 p.sequence ++ (p.outputsHash.bytes ++
      (Wire.u32 p.lockTime ++ Wire.u32 p.flag.word))))))))) := by
    simp only [encode, Outpoint.encode, SighashFlag.bytes, List.append_assoc]
  rw [hparts]
  refine ((reads_u32 p.version).mapError _).bind ?_
  refine ((reads_block p.prevoutsHash).mapError _).bind ?_
  refine ((reads_block p.sequenceHash).mapError _).bind ?_
  refine ((reads_block p.outpoint.txid).mapError _).bind ?_
  refine ((reads_u32 p.outpoint.index).mapError _).bind ?_
  refine ((reads_readScript h).mapError _).bind ?_
  refine ((reads_u64 p.amount).mapError _).bind ?_
  refine ((reads_u32 p.sequence).mapError _).bind ?_
  refine ((reads_block p.outputsHash).mapError _).bind ?_
  refine ((reads_u32 p.lockTime).mapError _).bind ?_
  exact ((reads_u32 p.flag.word).mapError _).map _

/-- **A preimage is read back from its bytes.** -/
theorem ofBytes_encode {p : Preimage} (h : p.WidthFits) : ofBytes p.encode = .ok p := by
  have hread := reads_read h 0 []
  rw [List.append_nil] at hread
  rw [ofBytes, Cursor.start, hread]
  rfl

/-- **Preimages with the same bytes agree in every field.** -/
theorem encode_inj {p q : Preimage} (hp : p.WidthFits) (hq : q.WidthFits)
    (h : p.encode = q.encode) : p = q := by
  have hread := ofBytes_encode hp
  rw [h, ofBytes_encode hq] at hread
  exact (Except.ok.inj hread).symm

end CoinScript.Preimage
