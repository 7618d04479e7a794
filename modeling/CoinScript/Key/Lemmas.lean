import CoinScript.Bytes.Lemmas
import CoinScript.Key.Private

/-!
# Private keys: the laws

`PrivateKey.ofBytes_toBytes`: a written key is read back.
-/

namespace CoinScript.PrivateKey

theorem order_lt_width : Secp256k1.order < 256 ^ 32 := by decide

/-- A written key is read back. -/
theorem ofBytes_toBytes (key : PrivateKey) : ofBytes key.toBytes = .ok key := by
  have hval : Bytes.toNatBE key.toBytes = key.scalar :=
    Bytes.toNatBE_ofNatBE (Nat.lt_trans key.lt order_lt_width)
  have hlen : key.toBytes.length = 32 := Bytes.length_ofNatBE 32 key.scalar
  simp [ofBytes, hlen, hval, ofScalar?_scalar]

end CoinScript.PrivateKey
