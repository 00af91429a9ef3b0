/-
# The two forms of an ECDSA signature

A JWS carries an ECDSA signature as `R || S`, two numbers at the width of the curve's field;
OpenSSL takes and gives the DER sequence of the two.  `nxe_jwx_ecdsa_raw_to_der` and
`nxe_jwx_ecdsa_der_to_raw` go from one to the other.

The leading zeros of a component are lost when it becomes a number, and `BN_bn2binpad` brings back
as many as the width asks for, for each component on its own.  So a string of the right length is
determined by its two numbers (`eq_components`), the fixed-width form exists exactly for numbers
that fit (`ecdsaDerToRaw_eq_some_iff`), and the two functions are inverse (`ecdsa_codec`).
-/
import NxeJwx.Encode
import NxeJwx.Facts

namespace NxeJwx

variable {PKey : Type} {O : Ossl PKey} {coordLen : Nat}

/-! ## 1. Two numbers at a fixed width -/

/-- `R || S`. -/
def components (coordLen r s : Nat) : Bytes :=
  BigEndian.toBytes coordLen r ++ BigEndian.toBytes coordLen s

@[simp] theorem length_components (r s : Nat) :
    (components coordLen r s).length = 2 * coordLen := by
  rw [components, List.length_append, BigEndian.length_toBytes, BigEndian.length_toBytes]
  omega

theorem take_components (r s : Nat) :
    (components coordLen r s).take coordLen = BigEndian.toBytes coordLen r :=
  List.take_left' (BigEndian.length_toBytes _ _)

theorem drop_components (r s : Nat) :
    (components coordLen r s).drop coordLen = BigEndian.toBytes coordLen s :=
  List.drop_left' (BigEndian.length_toBytes _ _)

/-- A string of the right length is the one of its two numbers, which fit. -/
theorem eq_components {raw : Bytes} (h : raw.length = 2 * coordLen) :
    ∃ r s, r < 256 ^ coordLen ∧ s < 256 ^ coordLen ∧ raw = components coordLen r s := by
  have hr : (raw.take coordLen).length = coordLen := by
    rw [List.length_take]
    omega
  have hs : (raw.drop coordLen).length = coordLen := by
    rw [List.length_drop]
    omega
  have hrlt := BigEndian.ofBytes_lt (raw.take coordLen)
  have hslt := BigEndian.ofBytes_lt (raw.drop coordLen)
  have hrback := BigEndian.toBytes_ofBytes (raw.take coordLen)
  have hsback := BigEndian.toBytes_ofBytes (raw.drop coordLen)
  rw [hr] at hrlt hrback
  rw [hs] at hslt hsback
  refine ⟨_, _, hrlt, hslt, ?_⟩
  rw [components, hrback, hsback, List.take_append_drop]

/-! ## 2. The two functions -/

/-- A structurally wrong signature, and no other, is declined. -/
theorem ecdsaRawToDer_eq_declined_iff {raw : Bytes} :
    ecdsaRawToDer O raw coordLen = .declined ↔ raw.length ≠ 2 * coordLen := by
  unfold ecdsaRawToDer
  split
  next h => exact ⟨fun _ => by omega, fun _ => rfl⟩
  next h =>
  refine ⟨fun hd => ?_, fun hne => absurd (by omega) h⟩
  dsimp only at hd
  split at hd
  · exact absurd hd (by simp)
  · split at hd <;> exact absurd hd (by simp)

/-- From two numbers that fit to their encoding. -/
theorem ecdsaRawToDer_components {r s : Nat} {der : Bytes} (hr : r < 256 ^ coordLen)
    (hs : s < 256 ^ coordLen) (hder : O.i2dEcdsaSig r s = some der) (hne : der ≠ []) :
    ecdsaRawToDer O (components coordLen r s) coordLen = .ok der := by
  have hlen : ¬ (components coordLen r s).length ≠ coordLen * 2 := by
    rw [length_components]
    omega
  have hwhole : (BigEndian.toBytes coordLen s).take coordLen = BigEndian.toBytes coordLen s :=
    List.take_of_length_le (by simp)
  simp only [ecdsaRawToDer, if_neg hlen, take_components, drop_components, hwhole,
    BigEndian.ofBytes_toBytes hr, BigEndian.ofBytes_toBytes hs, hder]
  exact if_neg fun h0 => hne (List.length_eq_zero_iff.mp h0)

/-- The fixed-width form is there when its buffer is and both numbers fit. -/
theorem ecdsaDerToRaw_eq_some_iff {fault : Bool} {der raw : Bytes} :
    ecdsaDerToRaw O fault der coordLen = some raw ↔ fault = false ∧
      ∃ r s, O.d2iEcdsaSig der = some (r, s) ∧ r < 256 ^ coordLen ∧ s < 256 ^ coordLen ∧
        raw = components coordLen r s := by
  unfold ecdsaDerToRaw
  cases hd : O.d2iEcdsaSig der with
  | none => simp
  | some rs =>
    obtain ⟨r, s⟩ := rs
    cases fault with
    | true => simp
    | false =>
      have hfit : (BigEndian.byteLength r > coordLen ∨ BigEndian.byteLength s > coordLen) ↔
          ¬ (r < 256 ^ coordLen ∧ s < 256 ^ coordLen) := by
        rw [← BigEndian.byteLength_le_iff, ← BigEndian.byteLength_le_iff]
        omega
      simp only [Bool.false_eq_true, if_false, hfit, Option.ite_none_left_eq_some, not_not,
        Option.some.injEq, Prod.mk.injEq, true_and]
      constructor
      · rintro ⟨⟨hr, hs⟩, rfl⟩
        exact ⟨r, s, ⟨rfl, rfl⟩, hr, hs, rfl⟩
      · rintro ⟨_, _, ⟨rfl, rfl⟩, hr, hs, rfl⟩
        exact ⟨⟨hr, hs⟩, rfl⟩

/-! ## 3. They are inverse -/

/-- What is assumed of `i2d_ECDSA_SIG` and `d2i_ECDSA_SIG` at a width: every pair of numbers of
that width has an encoding, and the encoding of a pair, whatever its width, is decoded to it. -/
structure Ossl.SigInverse (O : Ossl PKey) (coordLen : Nat) : Prop where
  encodes : ∀ r s, r < 256 ^ coordLen → s < 256 ^ coordLen →
    ∃ der, O.i2dEcdsaSig r s = some der ∧ der ≠ []
  decodes : ∀ r s der, O.i2dEcdsaSig r s = some der → O.d2iEcdsaSig der = some (r, s)

/-- **The conversions are inverse.**  From `R || S` there is a way to DER exactly when the length
is right, and the way back gives the very string; from the encoding of two numbers there is a way
to `R || S` exactly when both fit, and the way back gives the very encoding. -/
theorem ecdsa_codec (hO : O.SigInverse coordLen) :
    (∀ raw, (ecdsaRawToDer O raw coordLen = .declined ↔ raw.length ≠ 2 * coordLen) ∧
      (raw.length = 2 * coordLen → ∃ der, ecdsaRawToDer O raw coordLen = .ok der ∧
        ecdsaDerToRaw O false der coordLen = some raw)) ∧
    (∀ r s der, O.i2dEcdsaSig r s = some der →
      ((∃ raw, ecdsaDerToRaw O false der coordLen = some raw) ↔
        r < 256 ^ coordLen ∧ s < 256 ^ coordLen) ∧
      ∀ fault raw, ecdsaDerToRaw O fault der coordLen = some raw →
        raw.length = 2 * coordLen ∧ ecdsaRawToDer O raw coordLen = .ok der) := by
  refine ⟨fun raw => ⟨ecdsaRawToDer_eq_declined_iff, fun hlen => ?_⟩, fun r s der hder => ?_⟩
  · obtain ⟨r, s, hr, hs, rfl⟩ := eq_components hlen
    obtain ⟨der, hder, hne⟩ := hO.encodes r s hr hs
    refine ⟨der, ecdsaRawToDer_components hr hs hder hne, ?_⟩
    exact ecdsaDerToRaw_eq_some_iff.mpr ⟨rfl, r, s, hO.decodes r s der hder, hr, hs, rfl⟩
  · have hback := hO.decodes r s der hder
    have hpair : ∀ {fault raw}, ecdsaDerToRaw O fault der coordLen = some raw →
        r < 256 ^ coordLen ∧ s < 256 ^ coordLen ∧ raw = components coordLen r s := by
      intro fault raw h
      obtain ⟨-, r', s', hrs, hr, hs, rfl⟩ := ecdsaDerToRaw_eq_some_iff.mp h
      obtain ⟨rfl, rfl⟩ := Prod.mk.inj (Option.some.inj (hback.symm.trans hrs))
      exact ⟨hr, hs, rfl⟩
    refine ⟨⟨fun ⟨raw, h⟩ => ⟨(hpair h).1, (hpair h).2.1⟩, fun ⟨hr, hs⟩ => ?_⟩, ?_⟩
    · exact ⟨_, ecdsaDerToRaw_eq_some_iff.mpr ⟨rfl, r, s, hback, hr, hs, rfl⟩⟩
    · intro fault raw h
      obtain ⟨hr, hs, rfl⟩ := hpair h
      obtain ⟨der', hder', hne⟩ := hO.encodes r s hr hs
      obtain rfl := Option.some.inj (hder.symm.trans hder')
      exact ⟨length_components r s, ecdsaRawToDer_components hr hs hder hne⟩

/-! ## 4. DER as the codec -/

/-- DER is a codec at every width a curve has. -/
theorem Facts.sigInverse (T : Facts) (h : coordLen ≤ 126) : T.ossl.SigInverse coordLen where
  encodes r s hr hs := by
    have hrlen := Der.length_integerOctets_le hr
    have hslen := Der.length_integerOctets_le hs
    have hlen : (Der.pairContent r s).length < 256 ^ 126 := by
      have hsmall : (Der.pairContent r s).length ≤ 258 := by
        rw [Der.pairContent, List.length_append, Der.length_field (by omega),
          Der.length_field (by omega)]
        omega
      have hpow : (256 : Nat) ^ 2 ≤ 256 ^ 126 := Nat.pow_le_pow_right (by decide) (by decide)
      omega
    exact ⟨Der.pair r s, if_pos (BigEndian.byteLength_le_iff.mpr hlen), List.cons_ne_nil _ _⟩
  decodes r s der hder := T.decodes hder

/-- A signature with leading zeros and a component that is zero: `SEQUENCE { 5, 0 }`. -/
theorem ecdsa_codec_zero_component :
    ecdsaRawToDer (Facts.ossl {}) (List.replicate 31 0 ++ 5 :: List.replicate 32 0) 32 =
        .ok [48, 6, 2, 1, 5, 2, 1, 0] ∧
      ecdsaDerToRaw (Facts.ossl {}) false [48, 6, 2, 1, 5, 2, 1, 0] 32 =
        some (List.replicate 31 0 ++ 5 :: List.replicate 32 0) := by
  have hder : ecdsaRawToDer (Facts.ossl {}) (List.replicate 31 0 ++ 5 :: List.replicate 32 0)
      32 = .ok [48, 6, 2, 1, 5, 2, 1, 0] := by decide +kernel
  have hO : (Facts.ossl {}).SigInverse 32 := Facts.sigInverse {} (by decide)
  obtain ⟨der, hok, hback⟩ := ((ecdsa_codec hO).1
    (List.replicate 31 0 ++ 5 :: List.replicate 32 0)).2 (by decide)
  obtain rfl := Ret.ok.inj (hder.symm.trans hok)
  exact ⟨hder, hback⟩

end NxeJwx
