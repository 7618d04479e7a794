import CoinScript.Bytes.Lemmas
import CoinScript.Key.Public
import CoinScript.Proofs.Curve.FieldPrime
import CoinScript.Proofs.Machine.Encodings

/-!
# The encodings of a public key

A point of the curve is read from three byte strings and no others: its compressed form, its
uncompressed form and, if its `y` is even, a compact form, which is the compressed form under the tag
`05` (`PublicKey.decode?_eq_some_iff`).  The compact form is not one that keys are written in.  Whoever
reads keys without asking for strict encodings takes it for the key, and a key with an odd `y` has
no such form.

The reason why the tag is enough for `y` is that a square has two roots of which one is even and one
is odd, as the modulus is odd and no root is zero (`PublicKey.ofX?_eq_some_iff`).
-/

namespace CoinScript

open Secp256k1 (prime cubic onCurve sqrt? sqrt?_eq_some_iff)

theorem Secp256k1.prime_odd : prime % 2 = 1 := by decide

theorem Secp256k1.prime_lt_width : prime < 256 ^ 32 := by decide

namespace PublicKey

variable {b body : Bytes} {key : PublicKey} {odd : Bool} {x y : Nat}

/-- The coordinates are those of a point of the curve. -/
structure OnCurve (key : PublicKey) : Prop where
  x_lt : key.point.x < prime
  y_lt : key.point.y < prime
  equation : key.point.y * key.point.y % prime = cubic key.point.x

/-- The compressed form under a tag that does not tell the parity. -/
def compact (key : PublicKey) : Bytes := 0x05 :: Bytes.ofNatBE 32 key.point.x

/-! ## Points -/

theorem ofCoordinates?_eq_some_iff :
    ofCoordinates? x y = some key ↔ key.OnCurve ∧ key = ⟨⟨x, y⟩⟩ := by
  rw [ofCoordinates?, Option.ite_none_right_eq_some, Option.some.injEq]
  constructor
  · rintro ⟨⟨hx, hy, hcurve⟩, rfl⟩
    exact ⟨⟨hx, hy, eq_of_beq hcurve⟩, rfl⟩
  · rintro ⟨⟨hx, hy, hcurve⟩, rfl⟩
    exact ⟨⟨hx, hy, beq_iff_eq.mpr hcurve⟩, rfl⟩

/-- Of the two roots one is even and the other is odd. -/
theorem OnCurve.other (h : OnCurve ⟨⟨x, y⟩⟩) :
    OnCurve ⟨⟨x, prime - y⟩⟩ ∧ decide ((prime - y) % 2 = 1) = !decide (y % 2 = 1) := by
  obtain ⟨hx, hy, hcurve⟩ := h
  have hlt : y < prime := hy
  have hpos : y ≠ 0 := by
    rintro rfl
    exact Secp256k1.cubic_ne_zero x hcurve.symm
  have hodd := Secp256k1.prime_odd
  refine ⟨⟨hx, ?_, ?_⟩, ?_⟩
  · exact Nat.sub_lt Secp256k1.prime_pos (Nat.pos_of_ne_zero hpos)
  · exact (Secp256k1.prime_sub_mul_self hlt.le).trans hcurve
  · rw [← decide_not, decide_eq_decide]
    omega

/-- **A tag for the parity and the `x` are enough**: there is one such point, and it is found. -/
theorem ofX?_eq_some_iff :
    ofX? odd x = some key ↔
      key.OnCurve ∧ key.point.x = x ∧ decide (key.point.y % 2 = 1) = odd := by
  constructor
  · intro h
    rw [ofX?, Option.ite_none_right_eq_some, Option.map_eq_some_iff] at h
    obtain ⟨hx, root, hroot, hkey⟩ := h
    have hpoint : OnCurve ⟨⟨x, root⟩⟩ :=
      ⟨hx, Secp256k1.lt_of_sqrt? hroot, (sqrt?_eq_some_iff.mp hroot).2⟩
    split at hkey
    · next hparity =>
      subst hkey
      exact ⟨hpoint, rfl, hparity⟩
    · next hparity =>
      subst hkey
      obtain ⟨hother, hflip⟩ := hpoint.other
      exact ⟨hother, rfl, hflip.trans (Bool.eq_not_of_ne (Ne.symm hparity)).symm⟩
  · rintro ⟨hkey, rfl, rfl⟩
    obtain ⟨root, hroot, hsign⟩ := Secp256k1.exists_sqrt? hkey.y_lt
    rw [hkey.equation] at hroot
    rw [ofX?, if_pos hkey.x_lt, hroot, Option.map_some]
    rcases hsign with rfl | hsum
    · rw [if_pos rfl]
    · obtain ⟨-, hflip⟩ := hkey.other
      obtain rfl : root = prime - key.point.y := by omega
      rw [hflip, if_neg (Bool.not_ne_self _), Nat.sub_sub_self hkey.y_lt.le]

/-! ## Bytes -/

theorem toNatBE_x (h : key.OnCurve) : Bytes.toNatBE (Bytes.ofNatBE 32 key.point.x) = key.point.x :=
  Bytes.toNatBE_ofNatBE (Nat.lt_trans h.x_lt Secp256k1.prime_lt_width)

theorem toNatBE_y (h : key.OnCurve) : Bytes.toNatBE (Bytes.ofNatBE 32 key.point.y) = key.point.y :=
  Bytes.toNatBE_ofNatBE (Nat.lt_trans h.y_lt Secp256k1.prime_lt_width)

theorem ofNatBE_toNatBE_of_length {w : Nat} (h : body.length = w) :
    Bytes.ofNatBE w (Bytes.toNatBE body) = body := by
  rw [← h, Bytes.ofNatBE_toNatBE]

theorem decode?_compressed (h : key.OnCurve) : decode? key.compressed = some key := by
  have hx : (Bytes.ofNatBE 32 key.point.x).length = 32 := Bytes.length_ofNatBE 32 _
  by_cases hodd : key.point.y % 2 = 1
  · rw [compressed, if_pos hodd, decode?, if_pos hx, if_neg (by decide), if_pos rfl, toNatBE_x h,
      ofX?_eq_some_iff]
    exact ⟨h, rfl, decide_eq_true hodd⟩
  · rw [compressed, if_neg hodd, decode?, if_pos hx, if_pos (.inl rfl), toNatBE_x h,
      ofX?_eq_some_iff]
    exact ⟨h, rfl, decide_eq_false hodd⟩

theorem decode?_compact (h : key.OnCurve) (heven : key.point.y % 2 = 0) :
    decode? key.compact = some key := by
  have hx : (Bytes.ofNatBE 32 key.point.x).length = 32 := Bytes.length_ofNatBE 32 _
  rw [compact, decode?, if_pos hx, if_pos (.inr rfl), toNatBE_x h, ofX?_eq_some_iff]
  exact ⟨h, rfl, decide_eq_false (by omega)⟩

theorem decode?_uncompressed (h : key.OnCurve) : decode? key.uncompressed = some key := by
  have hx : (Bytes.ofNatBE 32 key.point.x).length = 32 := Bytes.length_ofNatBE 32 _
  have hy : (Bytes.ofNatBE 32 key.point.y).length = 32 := Bytes.length_ofNatBE 32 _
  have hbody : (Bytes.ofNatBE 32 key.point.x ++ Bytes.ofNatBE 32 key.point.y).length = 64 := by
    rw [List.length_append, hx, hy]
  rw [uncompressed, decode?, if_neg (by omega), if_pos ⟨hbody, rfl⟩, List.take_left' hx,
    List.drop_left' hx, toNatBE_x h, toNatBE_y h, ofCoordinates?_eq_some_iff]
  exact ⟨h, rfl⟩

/-- Whatever a key is read from is one of its forms. -/
theorem form_of_decode? (h : decode? b = some key) :
    key.OnCurve ∧ (b = key.compressed ∨ b = key.uncompressed ∨
      b = key.compact ∧ key.point.y % 2 = 0) := by
  match b, h with
  | tag :: body, h =>
    rw [decode?] at h
    split at h
    · next hlength =>
      have hbody := ofNatBE_toNatBE_of_length hlength
      split at h
      · next htag =>
        obtain ⟨hkey, hx, hparity⟩ := ofX?_eq_some_iff.mp h
        have heven : ¬key.point.y % 2 = 1 := of_decide_eq_false hparity
        refine ⟨hkey, ?_⟩
        rw [compressed, if_neg heven, compact, hx, hbody]
        rcases htag with rfl | rfl
        · exact .inl rfl
        · exact .inr (.inr ⟨rfl, by omega⟩)
      · split at h
        · next htag =>
          obtain ⟨hkey, hx, hparity⟩ := ofX?_eq_some_iff.mp h
          have hodd : key.point.y % 2 = 1 := of_decide_eq_true hparity
          refine ⟨hkey, .inl ?_⟩
          rw [compressed, if_pos hodd, hx, hbody, htag]
        · cases h
    · split at h
      · next hform =>
        obtain ⟨hlength, rfl⟩ := hform
        obtain ⟨hkey, rfl⟩ := ofCoordinates?_eq_some_iff.mp h
        have hx : (body.take 32).length = 32 := List.length_take_of_le (by omega)
        have hy : (body.drop 32).length = 32 := by
          rw [List.length_drop, hlength]
        refine ⟨hkey, .inr (.inl ?_)⟩
        rw [uncompressed, ofNatBE_toNatBE_of_length hx, ofNatBE_toNatBE_of_length hy,
          List.take_append_drop]
      · cases h

/-- **What a point is read from.** -/
theorem decode?_eq_some_iff :
    decode? b = some key ↔
      key.OnCurve ∧ (b = key.compressed ∨ b = key.uncompressed ∨
        b = key.compact ∧ key.point.y % 2 = 0) := by
  constructor
  · exact form_of_decode?
  · rintro ⟨h, rfl | rfl | ⟨rfl, heven⟩⟩
    · exact decode?_compressed h
    · exact decode?_uncompressed h
    · exact decode?_compact h heven

theorem ofBytes_eq_ok_iff : ofBytes b = .ok key ↔ decode? b = some key := by
  cases b with
  | nil => exact iff_of_false nofun nofun
  | cons tag body =>
    rw [ofBytes, if_neg (List.cons_ne_nil tag body)]
    cases decode? (tag :: body) with
    | none => exact iff_of_false nofun nofun
    | some read => rw [Option.some_inj, Except.ok.injEq]

/-! ## Tags -/

theorem head?_compressed : key.compressed.head? ≠ some 0x05 := by
  rw [compressed, List.head?_cons]
  split <;> decide

theorem head?_uncompressed : key.uncompressed.head? ≠ some 0x05 := by
  rw [uncompressed, List.head?_cons]
  decide

/-- The tag tells whether a key is written in one of the two forms that keys have. -/
theorem written_iff_of_ofBytes (h : ofBytes b = .ok key) :
    b = key.compressed ∨ b = key.uncompressed ↔ b.head? ≠ some 0x05 := by
  constructor
  · rintro (rfl | rfl)
    · exact head?_compressed
    · exact head?_uncompressed
  · intro htag
    obtain ⟨-, hb | hb | ⟨rfl, -⟩⟩ := form_of_decode? (ofBytes_eq_ok_iff.mp h)
    · exact .inl hb
    · exact .inr hb
    · exact absurd rfl htag

theorem head?_of_checkKey {r : Rules} (hstrict : r.flags.has .strictEncoding = true)
    (h : r.checkKey b = .ok ()) : b.head? ≠ some 0x05 := by
  rcases Rules.checkKey_eq_ok_iff.mp h hstrict with ⟨-, htag | htag⟩ | ⟨-, htag⟩
  all_goals
    rw [htag]
    decide

theorem onCurve_base : OnCurve ⟨Secp256k1.base⟩ :=
  ⟨by decide, by decide, by decide +kernel⟩

end PublicKey

/-- **A key is read from its two encodings, and from a third if its `y` is even.**  Both of the
encodings that are written are read as the key again.  The third has the tag `05`, which tells it from
the others, and does not pass where strict encodings are asked for. -/
theorem public_key_encodings_exact (b : Bytes) (key : PublicKey) :
    (PublicKey.ofBytes b = .ok key ↔
      key.OnCurve ∧ (b = key.compressed ∨ b = key.uncompressed ∨
        b = key.compact ∧ key.point.y % 2 = 0)) ∧
    (PublicKey.ofBytes b = .ok key →
      PublicKey.ofBytes key.compressed = .ok key ∧ PublicKey.ofBytes key.uncompressed = .ok key ∧
      (b = key.compressed ∨ b = key.uncompressed ↔ b.head? ≠ some 0x05) ∧
      ∀ r : Rules, r.flags.has .strictEncoding = true → r.checkKey b = .ok () →
        b = key.compressed ∨ b = key.uncompressed) := by
  refine ⟨PublicKey.ofBytes_eq_ok_iff.trans PublicKey.decode?_eq_some_iff, fun h => ?_⟩
  obtain ⟨hcurve, -⟩ := PublicKey.form_of_decode? (PublicKey.ofBytes_eq_ok_iff.mp h)
  have hwritten := PublicKey.written_iff_of_ofBytes h
  exact ⟨PublicKey.ofBytes_eq_ok_iff.mpr (PublicKey.decode?_compressed hcurve),
    PublicKey.ofBytes_eq_ok_iff.mpr (PublicKey.decode?_uncompressed hcurve), hwritten,
    fun r hstrict hcheck => hwritten.mpr (PublicKey.head?_of_checkKey hstrict hcheck)⟩

/-- The base point under the tag `05` is read as the key that its two encodings are read as; strict
encodings leave it out. -/
theorem public_key_of_compact_base :
    PublicKey.ofBytes (PublicKey.compact ⟨Secp256k1.base⟩) = .ok ⟨Secp256k1.base⟩ ∧
    PublicKey.ofBytes (PublicKey.compressed ⟨Secp256k1.base⟩) = .ok ⟨Secp256k1.base⟩ ∧
    PublicKey.ofBytes (PublicKey.uncompressed ⟨Secp256k1.base⟩) = .ok ⟨Secp256k1.base⟩ ∧
    ∀ r : Rules, r.flags.has .strictEncoding = true →
      r.checkKey (PublicKey.compact ⟨Secp256k1.base⟩) ≠ .ok () := by
  obtain ⟨hread, hforms⟩ :=
    public_key_encodings_exact (PublicKey.compact ⟨Secp256k1.base⟩) ⟨Secp256k1.base⟩
  have hcompact := hread.mpr ⟨PublicKey.onCurve_base, .inr (.inr ⟨rfl, by decide⟩)⟩
  obtain ⟨hcompressed, huncompressed, htag, hstrict⟩ := hforms hcompact
  exact ⟨hcompact, hcompressed, huncompressed,
    fun r hr hcheck => htag.mp (hstrict r hr hcheck) rfl⟩

/-- The base point under the tag `05` is read, and it is neither encoding of what it is read as. -/
theorem public_key_has_third_encoding :
    ¬∀ (b : Bytes) (key : PublicKey), PublicKey.ofBytes b = .ok key →
      b = key.compressed ∨ b = key.uncompressed := by
  intro honly
  have hread : PublicKey.ofBytes (PublicKey.compact ⟨Secp256k1.base⟩) = .ok ⟨Secp256k1.base⟩ :=
    PublicKey.ofBytes_eq_ok_iff.mpr (PublicKey.decode?_compact PublicKey.onCurve_base (by decide))
  exact (PublicKey.written_iff_of_ofBytes hread).mp (honly _ _ hread) rfl

end CoinScript
