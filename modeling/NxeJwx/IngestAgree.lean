/-
# The two ingest paths agree

One path reads `kty` and `crv` from the JWK and builds a handle; the other loads a handle and
derives `kty` and `crv` from it.  On one handle they arrive at keys that differ in the `crv` of
an RSA key at most (`ingest_paths_agree`): that is the round trip through the curve tables
(`kty_and_crv_of_handle`).  The library does not read the `crv` of a key once its thumbprint is
computed, so the two keys are `Alike`, and one can stand for the other in every keyset.
-/
import NxeJwx.Alike
import NxeJwx.DeclaredLabels

namespace NxeJwx

variable {PKey : Type} {E : Env PKey}

/-! ## 1. The two keys -/

/-- The handle built for a material reports the `kty` of the material, and for a curve key the
`crv` that the JWK spells. -/
theorem kty_and_crv_of_handle (hl : E.ossl.KeyLaws) {e : Json} {m : Material}
    (hd : Describes E e m) {p : PKey} (hp : m.pkey E.ossl = some p) :
    ktyFromPkey E.ossl p = m.kty ∧ ∃ crv, pkeyCrv E.ossl p = some crv ∧
      (m.kty = .ec ∨ m.kty = .okp → e.stringAt (ascii "crv") = some crv) := by
  cases hd with
  | rsa =>
    obtain ⟨htype, -⟩ := hl.rsa _ _ _ hp
    have hkty : ktyFromPkey E.ossl p = .rsa := by simp [ktyFromPkey, htype]
    refine ⟨hkty, [], by simp [pkeyCrv, hkty], ?_⟩
    intro h
    exact absurd h (by simp [Material.kty])
  | @ec c x y _ row crv xlen _ ylen =>
    obtain ⟨htype, -⟩ := hl.ec _ _ _ _ (by simp) hp
    have hkty : ktyFromPkey E.ossl p = .ec := by simp [ktyFromPkey, htype]
    have hcurve : ecCurveFromPkey E.ossl p = some c :=
      ecCurveFromPkey_eq_some_iff.mpr ⟨row, hl.group _ _ _ hp⟩
    exact ⟨hkty, c.jwkCrv, by simp [pkeyCrv, hkty, hcurve], fun _ => crv⟩
  | @okp c x _ row crv =>
    obtain ⟨htype, -⟩ := hl.raw _ _ _ hp
    have hkty : ktyFromPkey E.ossl p = .okp := by
      rcases okpCurves_nid c row with hnid | hnid <;> simp [ktyFromPkey, htype, hnid]
    have hcurve : okpCurveFromPkey E.ossl p = some c :=
      okpCurveFromPkey_eq_some_iff.mpr ⟨row, htype⟩
    exact ⟨hkty, c.jwkCrv, by simp [pkeyCrv, hkty, hcurve], fun _ => crv⟩
  | oct => exact absurd hp (by simp [Material.pkey])

/-- The text hashed for a key depends on its kind, handle and secret, and for curve keys on its
`crv`. -/
theorem thumbprintText_congr {k k' : Key PKey} (hkty : k.kty = k'.kty)
    (hpkey : k.pkey = k'.pkey) (hsecret : k.hmacSecret = k'.hmacSecret)
    (hcrv : k.kty = .ec ∨ k.kty = .okp → k.crv = k'.crv) (f : ThumbprintFaults) :
    thumbprintText E f k = thumbprintText E f k' := by
  unfold thumbprintText
  rw [← hkty]
  cases h : k.kty with
  | rsa => simp only [thumbprintRsa, hpkey]
  | ec => simp only [thumbprintEc, hpkey, hcrv (.inl h)]
  | okp => simp only [thumbprintOkp, hpkey, hcrv (.inr h)]
  | oct => simp only [thumbprintOct, hsecret]
  | unknown => rfl

/-- Keys with the same text have the same thumbprint. -/
theorem jwkThumbprint_congr {k k' : Key PKey} {f : ThumbprintFaults}
    (h : thumbprintText E f k = thumbprintText E f k') :
    (jwkThumbprint E f k).2.thumbprint = (jwkThumbprint E f k').2.thumbprint := by
  have hblank : ∀ k : Key PKey,
      thumbprintText E f { k with thumbprint := [] } = thumbprintText E f k := fun _ => rfl
  simp only [jwkThumbprint, hblank, h]
  cases thumbprintText E f k' with
  | declined => rfl
  | error => rfl
  | ok json =>
    dsimp only
    split
    · rfl
    split
    · rfl
    split <;> rfl

/-! ## 2. One key for another -/

/-- The keys of `J'` are those of `J`, with `k2` in some of the places of `k1`. -/
def Replaced (k1 k2 : Key PKey) (J J' : Jwks PKey) : Prop :=
  List.Forall₂ (fun a b => b = a ∨ (a = k1 ∧ b = k2)) J.walk J'.walk

/-- Two keysets that answer every request the same way. -/
structure SameAnswers (E : Env PKey) (J J' : Jwks PKey) : Prop where
  token : ∀ token pool, jwsVerify E (primitive E) token (some J) pool =
    jwsVerify E (primitive E) token (some J') pool
  raw : ∀ keyid alg msg sig pool,
    jwksVerifyRaw E (primitive E) (some J) keyid alg msg sig pool =
      jwksVerifyRaw E (primitive E) (some J') keyid alg msg sig pool
  rawByKid : ∀ kid alg msg sig pool,
    jwksVerifyRawByKid E (primitive E) (some J) kid alg msg sig pool =
      jwksVerifyRawByKid E (primitive E) (some J') kid alg msg sig pool
  kid : ∀ kid, hasKid (some J) kid = hasKid (some J') kid
  thumbprint : ∀ tp, hasThumbprint (some J) tp = hasThumbprint (some J') tp

/-- A key may be replaced by one that is alike. -/
theorem sameAnswers_of_alike {k1 k2 : Key PKey} (h : Alike E (primitive E) (primitive E) k1 k2)
    {J J' : Jwks PKey} (hr : Replaced k1 k2 J J') : SameAnswers E J J' := by
  have hJ : AlikeKeysets E (primitive E) (primitive E) J J' := by
    refine hr.imp ?_
    intro a b hab
    rcases hab with rfl | ⟨rfl, rfl⟩
    · exact .refl_of fun _ _ _ => rfl
    · exact h
  exact ⟨jwsVerify_alike hJ, jwksVerifyRaw_alike hJ, jwksVerifyRawByKid_alike hJ,
    hasKid_alike hJ, hasThumbprint_alike hJ⟩

/-- Keys that differ in `crv` only are alike. -/
theorem alike_of_fields {k1 k2 : Key PKey} (hkid : k1.kid = k2.kid) (halg : k1.alg = k2.alg)
    (htp : k1.thumbprint = k2.thumbprint) (hkty : k1.kty = k2.kty) (hpkey : k1.pkey = k2.pkey)
    (hsecret : k1.hmacSecret = k2.hmacSecret) : Alike E (primitive E) (primitive E) k1 k2 where
  kid := hkid
  thumbprint := htp
  verify alg msg sig := by
    have hcompatible : keyCompatible E.ossl k1 alg = keyCompatible E.ossl k2 alg := by
      unfold keyCompatible
      rw [halg, hkty, hpkey]
    simp only [verifyWithKey, hcompatible, primitive_congr hpkey hsecret]
  derived := (sameKind_of_handle hkty hpkey).derived

/-! ## 3. The two paths -/

/-- Where a JWK without `alg` gives the key `k1` of a public key, a PEM of the same OpenSSL key
under the same kid gives a key `k2` that agrees with `k1`, and `k2` can stand for `k1` in every
keyset. -/
theorem ingest_paths_agree (hl : E.ossl.KeyLaws) {doc1 doc2 : Bytes} {pool1 pool2 : Pool}
    {J1 : Jwks PKey} {e : Json} {m : Material} {k1 : Key PKey} {kid pem : Bytes}
    {members : List (Bytes × Json)}
    (h1 : jwksParse E noParseFaults (some doc1) (some pool1) = some J1) (hk1 : k1 ∈ J1.walk)
    (ho : JwkOrigin E e m k1) (hpublic : m.kty ≠ .oct)
    (hkid : e.objectGet (ascii "kid") = some (.string kid))
    (halg : e.objectGet (ascii "alg") = none)
    (hd : KeyvalMembers E doc2 members) (hm : (kid, .string pem) ∈ members) (hpem : pem ≠ [])
    (hread : E.ossl.pemReadPubkey pem = m.pkey E.ossl) :
    ∃ J2 k2, keyvalParse E noParseFaults (some doc2) (some pool2) = some J2 ∧ k2 ∈ J2.walk ∧
      k2.kty = k1.kty ∧ k2.kid = k1.kid ∧ k2.thumbprint = k1.thumbprint ∧
      (k1.kty = .ec ∨ k1.kty = .okp → k2.crv = k1.crv) ∧
      ∀ J J', Replaced k1 k2 J J' → SameAnswers E J J' := by
  obtain ⟨p, hp⟩ := Option.isSome_iff_exists.mp (ho.usable.made.resolve_left hpublic)
  obtain ⟨hkty, crv, hcrv, hspelled⟩ := kty_and_crv_of_handle hl ho.usable.describes hp
  have hkid' : e.stringAt (ascii "kid") = some kid := Json.stringAt_eq_some_iff.mpr hkid
  have hmember : PemMember E (kid, .string pem) p := by
    refine ⟨?_, ⟨pem, rfl, hpem, hread.trans hp⟩, by rw [hcrv]; rfl⟩
    rintro rfl
    exact ho.usable.kid hkid'
  obtain ⟨J2, hJ2, hk2⟩ := pemKey_mem_of_keyvalParse pool2 hd hm hmember
  have hkey := key_of_jwksParse h1 hk1 ho
  have htext : ∀ f, thumbprintText E f (pemKey E.ossl kid p) =
      thumbprintText E f (jwkKey E.ossl e m) := by
    refine thumbprintText_congr hkty hp.symm ?_ fun hec => ?_
    · cases m with
      | oct => exact absurd rfl hpublic
      | rsa | ec | okp => rfl
    · have hspelled' := hspelled (hkty ▸ hec)
      simp only [pemKey, jwkKey, labelled, hcrv, hspelled']
  have htp := jwkThumbprint_congr (htext noThumbprintFaults)
  obtain ⟨tp, heq, -⟩ := jwkThumbprint_eq E noThumbprintFaults (pemKey E.ossl kid p)
  rw [heq] at hk2
  rw [← hkey, heq] at htp
  have hsecret : k1.hmacSecret = [] := by
    rw [ho.hmacSecret]
    cases m with
    | oct => exact absurd rfl hpublic
    | rsa | ec | okp => rfl
  have halg1 : k1.alg = [] := by rw [ho.alg, Json.stringAt, halg]; rfl
  have hkid1 : k1.kid = kid := by rw [ho.kid, hkid']; rfl
  refine ⟨J2, _, hJ2, hk2, hkty.trans ho.kty.symm, hkid1.symm, htp, ?_, ?_⟩
  · intro hec
    rw [ho.crv, hspelled (ho.kty ▸ hec)]
    simp only [pemKey, hcrv]
  · intro J J' hr
    exact sameAnswers_of_alike (alike_of_fields hkid1 halg1 htp.symm (ho.kty.trans hkty.symm)
      (ho.pkey.trans hp) hsecret) hr

/-- A JWKS with the Ed25519 key under the kid `k1`. -/
def edNamedJwks : Bytes × Json :=
  edLabelledDoc (ascii "kid") (ascii "\"k1\"") (.string (ascii "k1"))

/-- The JWK and the PEM of the Ed25519 key under the kid `k1`. -/
theorem ingest_paths_agree_ed25519 :
    ∃ J2 k2, keyvalParse (edFacts [edNamedJwks]).env noParseFaults (some edKeyval.1) (some ⟨⟩) =
        some J2 ∧ k2 ∈ J2.walk ∧ k2.thumbprint = (edKey []).thumbprint ∧
      ∀ J J', Replaced (edKey (ascii "k1")) k2 J J' →
        SameAnswers (edFacts [edNamedJwks]).env J J' := by
  have hJ : jwksParse (edFacts [edNamedJwks]).env noParseFaults (some edNamedJwks.1) (some ⟨⟩) =
      some (.ofList [edKey (ascii "k1")]) := by
    decide +kernel
  have hd : KeysArray (edFacts [edNamedJwks]).env edNamedJwks.1 _ :=
    keysArray_labelled (by decide +kernel) (by decide +kernel) (by decide +kernel)
  obtain ⟨m, ho⟩ := origin_labelled hJ hd
  have hmembers : KeyvalMembers (edFacts [edNamedJwks]).env edKeyval.1
      [(ascii "k1", .string edPem)] :=
    ⟨by decide +kernel, @Facts.parse_eq _ [edJwks] _ edKeyval rfl
      (by decide +kernel) (by decide +kernel), by decide⟩
  have hpem : (edFacts [edNamedJwks]).env.ossl.pemReadPubkey edPem =
      some (.raw .ed25519 edX) := by
    decide +kernel
  have hpublic : m.kty ≠ .oct := by
    rw [← ho.kty]
    decide
  obtain ⟨J2, k2, hJ2, hk2, -, -, htp, -, hsame⟩ := ingest_paths_agree
    (edFacts [edNamedJwks]).keyLaws hJ (by simp) ho hpublic rfl rfl hmembers (by simp) (by decide)
    (hpem.trans ho.pkey)
  exact ⟨J2, k2, hJ2, hk2, htp, hsame⟩

end NxeJwx
