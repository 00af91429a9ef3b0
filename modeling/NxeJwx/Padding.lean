/-
# RS* and PS*: the padding of a signature

The algorithm table names RS256, RS384 and RS512 RSASSA-PKCS1-v1_5 and PS256, PS384 and PS512
RSASSA-PSS.  `nxe_jwx_evp_verify` and `nxe_jwx_evp_sign` set the padding for PS* and leave it to
the fresh context for RS*, and a fresh context takes it from the type of the key: PKCS#1 v1.5 for
an RSA key, PSS for an RSASSA-PSS key.  Both types have the kty RSA and pass the check of a
private key.

So the padding is the one named except for RS* with an RSASSA-PSS key (`rsa_padding`): never for
a key of a JWKS, but for a PEM, in a keyval document (`keyval_rsaPss`) or given to the issuer.
-/
import NxeJwx.IssueVerify
import NxeJwx.RsaBounds

namespace NxeJwx

open TryEach

variable {PKey : Type} {E : Env PKey}

/-! ## 1. What is assumed of OpenSSL, and what is named -/

/-- A fresh context has the padding of the key's type, and the setters set what they say and
nothing else of the three parameters. -/
structure Ossl.PaddingLaws (O : Ossl PKey) : Prop where
  verify_rsa : ∀ p md c, O.digestVerifyInit p md = some c → O.baseId p = .rsa →
    c.padding = .pkcs1
  verify_rsaPss : ∀ p md c, O.digestVerifyInit p md = some c → O.baseId p = .rsaPss →
    c.padding = .pss
  sign_rsa : ∀ p md c, O.digestSignInit p md = some c → O.baseId p = .rsa → c.padding = .pkcs1
  sign_rsaPss : ∀ p md c, O.digestSignInit p md = some c → O.baseId p = .rsaPss →
    c.padding = .pss
  set_padding : ∀ p padding c c', O.setRsaPadding p padding c = some c' → c'.padding = padding
  set_saltlen : ∀ p saltlen c c', O.setRsaPssSaltlen p saltlen c = some c' →
    c' = { c with saltlen := saltlen }
  set_mgf1 : ∀ p md c c', O.setRsaMgf1Md p md c = some c' → c' = { c with mgf1 := md }

/-- A signature scheme of the RSA family and its name. -/
structure RsaScheme where
  name : Bytes
  padding : RsaPadding
  md : Digest

/-- What the RSA names of JWA stand for. -/
def rsaSchemes : List RsaScheme :=
  [ ⟨ascii "RS256", .pkcs1, .sha256⟩, ⟨ascii "RS384", .pkcs1, .sha384⟩,
    ⟨ascii "RS512", .pkcs1, .sha512⟩, ⟨ascii "PS256", .pss, .sha256⟩,
    ⟨ascii "PS384", .pss, .sha384⟩, ⟨ascii "PS512", .pss, .sha512⟩ ]

namespace RsaScheme

/-- The context is one of the scheme: PSS comes with MGF1 and a salt of the digest's. -/
def Holds (s : RsaScheme) (c : SigParams) : Prop :=
  c.padding = s.padding ∧ (s.padding = .pss → c.mgf1 = some s.md ∧ c.saltlen = .digest)

/-- The switches on the algorithm family ask for the PSS setters. -/
def isPss (s : RsaScheme) : Bool := s.padding == .pss

/-- The row of the algorithm table. -/
def row (s : RsaScheme) : Alg where
  name := s.name
  family := if s.isPss then .rsaPss else .rsa
  digest := some s.md
  ecCurve := none
  ecCoordLen := 0

end RsaScheme

/-- The table has the six schemes under their names, and no other row of the RSA families. -/
theorem rsaSchemes_rows (haveHmac : Bool) :
    (∀ s ∈ rsaSchemes, lookupAlg haveHmac s.name = some s.row) ∧
    (∀ a ∈ algs haveHmac, a.family = .rsa ∨ a.family = .rsaPss →
      a ∈ rsaSchemes.map RsaScheme.row) := by
  cases haveHmac <;> decide

/-! ## 2. One context -/

/-- The three setters leave PSS with the digest, whatever the fresh context was. -/
theorem pssParams_named (hp : E.ossl.PaddingLaws) {p : PKey} {md : Option Digest}
    {fresh c : SigParams} (h : pssParams E.ossl p md fresh = some c) :
    c.padding = .pss ∧ c.mgf1 = md ∧ c.saltlen = .digest := by
  unfold pssParams at h
  split at h
  · exact absurd h (by simp)
  next c₁ h₁ =>
  split at h
  · exact absurd h (by simp)
  next c₂ h₂ =>
  have hpadding := hp.set_padding _ _ _ _ h₁
  have hsaltlen := hp.set_saltlen _ _ _ _ h₂
  have hmgf1 := hp.set_mgf1 _ _ _ _ h
  rw [hsaltlen] at hmgf1
  exact hmgf1 ▸ ⟨hpadding, rfl, rfl⟩

/-- A context that starts from a fresh one with the padding of the key's type. -/
theorem holds_iff_of_fresh (hp : E.ossl.PaddingLaws) (s : RsaScheme) {p : PKey}
    {fresh c : SigParams} (hrsa : E.ossl.baseId p = .rsa → fresh.padding = .pkcs1)
    (hrsaPss : E.ossl.baseId p = .rsaPss → fresh.padding = .pss)
    (htype : E.ossl.baseId p = .rsa ∨ E.ossl.baseId p = .rsaPss)
    (hc : (if s.isPss then pssParams E.ossl p (some s.md) fresh else some fresh) = some c) :
    s.Holds c ↔ (s.padding = .pss ∨ E.ossl.baseId p = .rsa) := by
  cases hs : s.padding with
  | pkcs1 =>
    -- nothing is set, the context stays fresh
    simp only [RsaScheme.isPss, hs] at hc
    obtain rfl : fresh = c := Option.some.inj hc
    simp only [RsaScheme.Holds, hs, reduceCtorEq, false_implies, and_true, false_or]
    rcases htype with h | h
    · simp [h, hrsa h]
    · simp [h, hrsaPss h]
  | pss =>
    simp only [RsaScheme.isPss, hs, beq_self_eq_true, if_true] at hc
    obtain ⟨hpadding, hset⟩ := pssParams_named hp hc
    simp only [RsaScheme.Holds, hs, true_or, iff_true]
    exact ⟨hpadding, fun _ => hset⟩

/-- The context that `EVP_DigestVerify` runs under. -/
theorem verifyContext_holds_iff (hp : E.ossl.PaddingLaws) (s : RsaScheme) {p : PKey}
    (htype : E.ossl.baseId p = .rsa ∨ E.ossl.baseId p = .rsaPss) {c : SigParams}
    (hc : verifyContext E.ossl p (some s.md) s.isPss = some c) :
    s.Holds c ↔ (s.padding = .pss ∨ E.ossl.baseId p = .rsa) := by
  unfold verifyContext at hc
  split at hc
  · exact absurd hc (by simp)
  next fresh hfresh =>
  exact holds_iff_of_fresh hp s (hp.verify_rsa _ _ _ hfresh) (hp.verify_rsaPss _ _ _ hfresh) htype
    hc

/-- The context that `EVP_DigestSign` runs under. -/
theorem signContext_holds_iff (hp : E.ossl.PaddingLaws) (s : RsaScheme) {p : PKey}
    (htype : E.ossl.baseId p = .rsa ∨ E.ossl.baseId p = .rsaPss) {c : SigParams}
    (hc : signContext E.ossl p (some s.md) s.isPss = some c) :
    s.Holds c ↔ (s.padding = .pss ∨ E.ossl.baseId p = .rsa) := by
  unfold signContext at hc
  split at hc
  · exact absurd hc (by simp)
  next fresh hfresh =>
  exact holds_iff_of_fresh hp s (hp.sign_rsa _ _ _ hfresh) (hp.sign_rsaPss _ _ _ hfresh) htype hc

/-! ## 3. The keys and the switches -/

/-- An RSA key of a JWK object is a plain RSA key. -/
theorem JwkOrigin.rsa_type (hr : E.ossl.RsaComponents) {e : Json} {m : Material}
    {k : Key PKey} (ho : JwkOrigin E e m k) (hk : k.kty = .rsa) :
    ∃ p, k.pkey = some p ∧ E.ossl.baseId p = .rsa := by
  have hm : m.kty = .rsa := ho.kty.symm.trans hk
  have hmade := ho.usable.made
  have hpkey := ho.pkey
  cases m with
  | rsa n e =>
    obtain ⟨p, hp⟩ := Option.isSome_iff_exists.mp (hmade.resolve_left (by simp [Material.kty]))
    exact ⟨p, hpkey.trans hp, (hr n e p hp).1⟩
  | ec => exact absurd hm (by simp [Material.kty])
  | okp => exact absurd hm (by simp [Material.kty])
  | oct => exact absurd hm (by simp [Material.kty])

/-- An RSA key of a returned keyset is an RSA or an RSASSA-PSS key. -/
theorem rsa_type_of_returned (hr : E.ossl.RsaComponents) {J : Jwks PKey} (hJ : Returned E J)
    {k : Key PKey} (hk : k ∈ J.walk) (hkty : k.kty = .rsa) :
    ∃ p, k.pkey = some p ∧ (E.ossl.baseId p = .rsa ∨ E.ossl.baseId p = .rsaPss) := by
  rcases hJ with ⟨F, doc, pool, h⟩ | ⟨F, doc, pool, h⟩
  · obtain ⟨entries, e, m, -, -, ho⟩ := mem_of_jwksParse h hk
    obtain ⟨p, hp, htype⟩ := ho.rsa_type hr hkty
    exact ⟨p, hp, .inl htype⟩
  · obtain ⟨members, member, p, -, -, ho⟩ := mem_of_keyvalParse h hk
    exact ⟨p, ho.handle, ktyFromPkey_rsa_iff.mp (ho.kty.symm.trans hkty)⟩

/-- The keyset of a keyval document has plain RSA keys only, unless a PEM of the document is an
RSASSA-PSS key. -/
theorem keyval_plain_iff {doc : Bytes} :
    (∀ F pool J, keyvalParse E F (some doc) (some pool) = some J → ∀ k ∈ J.walk, k.kty = .rsa →
      ∃ p, k.pkey = some p ∧ E.ossl.baseId p = .rsa) ↔
    ∀ members, KeyvalMembers E doc members → ∀ member ∈ members, ∀ p, RsaPem E member p →
      E.ossl.baseId p = .rsa := by
  constructor
  · intro h members hd member hm p hp
    obtain ⟨J, hJ, k, hk, ho⟩ := pemMember_mem_of_keyvalParse ⟨⟩ hd hm hp.pemMember
    obtain ⟨p', hp', htype⟩ := h _ _ J hJ k hk (ho.kty.trans (ktyFromPkey_rsa_iff.mpr hp.type))
    rw [ho.handle] at hp'
    exact Option.some.inj hp' ▸ htype
  · intro h F pool J hJ k hk hkty
    obtain ⟨members, member, p, hd, hm, ho⟩ := mem_of_keyvalParse hJ hk
    have htype := ktyFromPkey_rsa_iff.mp (ho.kty.symm.trans hkty)
    exact ⟨p, ho.handle, h members hd member hm p ⟨ho.usable.name, ho.usable.pem, htype⟩⟩

/-- The switch of the verifier, for an RSA scheme. -/
theorem primitive_scheme (s : RsaScheme) {k : Key PKey} {msg sig : Bytes} :
    primitive E k s.row msg sig = evpVerify E.ossl k.pkey (some s.md) msg sig s.isPss := by
  cases hs : s.isPss <;> simp [primitive, RsaScheme.row, hs]

/-- The switch of the issuer, for an RSA scheme. -/
theorem signRaw_scheme (s : RsaScheme) {f : EncodeFaults} {key msg : Bytes} :
    signRaw E f s.row key msg =
      signWithPrivkey E f s.row key fun p => evpSign E.ossl f p (some s.md) msg s.isPss := by
  cases hs : s.isPss <;> simp [signRaw, RsaScheme.row, hs]

/-- A private key is accepted for an RSA scheme when it is an RSA or an RSASSA-PSS key. -/
theorem privkeyCompatible_scheme (s : RsaScheme) {p : PKey} :
    privkeyCompatible E.ossl p s.row = true ↔
      (E.ossl.baseId p = .rsa ∨ E.ossl.baseId p = .rsaPss) := by
  cases hs : s.isPss <;> simp [privkeyCompatible, RsaScheme.row, hs]

/-- What the verifier answers with an RSA key and an RSA scheme is what OpenSSL answers under
the context. -/
theorem verifyWithKey_scheme_iff (s : RsaScheme) {k : Key PKey} {p : PKey}
    (hp : k.pkey = some p) {msg sig : Bytes} :
    verifyWithKey E (primitive E) k s.row msg sig = .accepted ↔
      keyCompatible E.ossl k s.row = true ∧ E.ossl.digestByName s.md = true ∧
      ∃ c, verifyContext E.ossl p (some s.md) s.isPss = some c ∧
        E.ossl.digestVerify p (some s.md) c sig msg = 1 := by
  rw [verifyWithKey_accepted_iff, primitive_scheme, evpVerify_accepted_iff, hp]
  simp

/-- An issued signature was made under the context of a private key that was accepted. -/
theorem signed_scheme (s : RsaScheme) {f : EncodeFaults} {key msg sig : Bytes}
    (h : (signRaw E f s.row key msg).sig = some sig) :
    ∃ p c, E.ossl.pemReadPrivateKey key = some p ∧
      privkeyCompatible E.ossl p s.row = true ∧
      signContext E.ossl p (some s.md) s.isPss = some c ∧
      E.ossl.digestSign p (some s.md) c msg = some sig := by
  rw [signRaw_scheme] at h
  obtain ⟨p, hread, hcompat, hsign⟩ := signWithPrivkey_sig h
  obtain ⟨-, c, hc, hsig⟩ := evpSign_eq_some hsign
  exact ⟨p, c, hread, hcompat, hc, hsig⟩

/-! ## 4. Exactly when -/

/-- A signature is verified and issued under the scheme that the algorithm names for every PS*
name, and for an RS* name exactly when the key is a plain RSA key.  The RSA keys of a JWKS are
plain; those of a keyval document are, unless one of its PEMs is an RSASSA-PSS key. -/
theorem rsa_padding (hr : E.ossl.RsaComponents) (hp : E.ossl.PaddingLaws) :
    (∀ J, Returned E J → ∀ k ∈ J.walk, k.kty = .rsa → ∃ p, k.pkey = some p ∧
      ∀ s ∈ rsaSchemes, ∀ a, lookupAlg E.haveHmac s.name = some a →
        (∀ c, verifyContext E.ossl p a.digest (a.family == .rsaPss) = some c →
          (s.Holds c ↔ (s.padding = .pss ∨ E.ossl.baseId p = .rsa))) ∧
        (∀ msg sig, verifyWithKey E (primitive E) k a msg sig = .accepted ↔
          keyCompatible E.ossl k a = true ∧ E.ossl.digestByName s.md = true ∧
          ∃ c, verifyContext E.ossl p a.digest (a.family == .rsaPss) = some c ∧
            E.ossl.digestVerify p a.digest c sig msg = 1)) ∧
    (∀ F doc pool J, jwksParse E F (some doc) (some pool) = some J →
      ∀ k ∈ J.walk, k.kty = .rsa → ∃ p, k.pkey = some p ∧ E.ossl.baseId p = .rsa) ∧
    (∀ doc, (∀ F pool J, keyvalParse E F (some doc) (some pool) = some J →
        ∀ k ∈ J.walk, k.kty = .rsa → ∃ p, k.pkey = some p ∧ E.ossl.baseId p = .rsa) ↔
      ∀ members, KeyvalMembers E doc members → ∀ member ∈ members, ∀ p, RsaPem E member p →
        E.ossl.baseId p = .rsa) ∧
    (∀ f pool kid claims key out, ∀ s ∈ rsaSchemes,
      (encode E f pool (some s.name) kid (some claims) (some key) out).rc = .ok →
      ∃ p c header sig, E.ossl.pemReadPrivateKey key = some p ∧
        signContext E.ossl p (some s.md) s.isPss = some c ∧
        (s.Holds c ↔ (s.padding = .pss ∨ E.ossl.baseId p = .rsa)) ∧
        E.ossl.digestSign p (some s.md) c (E.b64.encode header ++ dot :: E.b64.encode claims) =
          some sig ∧
        (encode E f pool (some s.name) kid (some claims) (some key) out).out =
          some ⟨(assemble E header claims sig).length,
            some (assemble E header claims sig ++ [0])⟩) := by
  refine ⟨?_, ?_, fun doc => keyval_plain_iff, ?_⟩
  · intro J hJ k hk hkty
    obtain ⟨p, hpkey, htype⟩ := rsa_type_of_returned hr hJ hk hkty
    refine ⟨p, hpkey, ?_⟩
    intro s hs a ha
    obtain rfl := Option.some.inj (ha.symm.trans ((rsaSchemes_rows _).1 s hs))
    rw [show (s.row.family == .rsaPss) = s.isPss by cases h : s.isPss <;> simp [RsaScheme.row, h]]
    exact ⟨fun c hc => verifyContext_holds_iff hp s htype hc,
      fun msg sig => verifyWithKey_scheme_iff s hpkey⟩
  · intro F doc pool J hJ k hk hkty
    obtain ⟨entries, e, m, -, -, ho⟩ := mem_of_jwksParse hJ hk
    exact ho.rsa_type hr hkty
  · intro f pool kid claims key out s hs hok
    obtain ⟨alg', claims', key', a, header, sig, halg, hclaims, hkey, hissued, hout⟩ :=
      encode_ok hok
    obtain rfl := Option.some.inj halg
    obtain rfl := Option.some.inj hclaims
    obtain rfl := Option.some.inj hkey
    obtain rfl := Option.some.inj (hissued.prepared.row.symm.trans ((rsaSchemes_rows _).1 s hs))
    obtain ⟨p, c, hread, hcompat, hc, hsig⟩ := signed_scheme s hissued.signed
    have htype := (privkeyCompatible_scheme s).mp hcompat
    exact ⟨p, c, header, sig, hread, hc, signContext_holds_iff hp s htype hc, hsig, hout⟩

/-! ## 5. An RSASSA-PSS key in a keyval document -/

/-- The modulus of an RSASSA-PSS key, in base64url. -/
def pssN64 : Bytes :=
  ascii "wj1izjiB4xGko-_HV3uDmkCirOLzVtzVNq7kbK5SloxU9B0WON5T18X-Po67-H6MDClgfJw3gtpKA46vrX-9" ++
  ascii "C8K7KH3wD3p9x92ruYckPosW9ON6DmOXt5GnNJy2vhbKYMpdXc760gSdOeClYQuAfq0WFqTfsVj9nSpLNLHJ" ++
  ascii "OWUv_VOU7Sh18XDmVBnXOmgcTqjW8tolcPUrfyGeAvpq1PJJcFPt17T_45OpQ4ac-ObMie5jbHCU8KzXpyZD" ++
  ascii "HDVuTRcIiXt2KOoePmDNfVDJBi3K6M5Q9oIrdseF4DokI3Jlb77HLtLyU1tr8lKkKw74P9lxG2gjPbh7-Syb" ++
  ascii "xkRjKw"

/-- The lines of its PEM, and their ends in a PEM and in a JSON string. -/
def pssPemWith (eol : Bytes) : Bytes :=
  ascii "-----BEGIN PUBLIC KEY-----" ++ eol ++
  ascii "MIIBIDALBgkqhkiG9w0BAQoDggEPADCCAQoCggEBAMI9Ys44geMRpKPvx1d7g5pA" ++ eol ++
  ascii "oqzi81bc1Tau5GyuUpaMVPQdFjjeU9fF/j6Ou/h+jAwpYHycN4LaSgOOr61/vQvC" ++ eol ++
  ascii "uyh98A96fcfdq7mHJD6LFvTjeg5jl7eRpzSctr4WymDKXV3O+tIEnTngpWELgH6t" ++ eol ++
  ascii "Fhak37FY/Z0qSzSxyTllL/1TlO0odfFw5lQZ1zpoHE6o1vLaJXD1K38hngL6atTy" ++ eol ++
  ascii "SXBT7de0/+OTqUOGnPjmzInuY2xwlPCs16cmQxw1bk0XCIl7dijqHj5gzX1QyQYt" ++ eol ++
  ascii "yujOUPaCK3bHheA6JCNyZW++xy7S8lNba/JSpCsO+D/ZcRtoIz24e/ksm8ZEYysC" ++ eol ++
  ascii "AwEAAQ==" ++ eol ++
  ascii "-----END PUBLIC KEY-----" ++ eol

/-- A keyval document with the RSASSA-PSS key under the kid `k1`. -/
def pssKeyval : Bytes × Json :=
  ( ascii "\x7b\"k1\":\"" ++ pssPemWith (ascii "\\n") ++ ascii "\"\x7d",
    .object [(ascii "k1", .string (pssPemWith (ascii "\n")))] )

/-- What the token with the header alg RS256, typ JWT signs, and the RSASSA-PSS signature. -/
def pssSigned : Bytes × Bytes :=
  ( ascii "eyJhbGciOiJSUzI1NiIsInR5cCI6IkpXVCJ9.eyJzdWIiOiJqb2UifQ",
    (stubDecode (
      ascii "rXh0p_n3menQdXh8djzLGWawtffEAM4iXdMWhlPvfur0ZfC7nAz8xt9tGM2fBhRupPoTYCsDKndGFGFVUl" ++
      ascii "gwFPRuOSKYqNDqcUXdGcGvXH6Jk46-VoKiLQI1AhYP6R2xq01DTByPHFLokUE6tw-abU3A-S3fX-5cHc7I" ++
      ascii "AbZcloUfYmXULMr-MLZzxuYvSsJzGFpKKqw9UkwBfBeNnu83NuwB-yRla24o0f3DQDosolMbOr9wNcNtpe" ++
      ascii "Wgc00ZnR69PFkMANDS4UqY-7omYsSqB9IxFgx-RI_fbIObf5Oxwt_XQYO1_OP1IhGoledEOV0O5-lDD1Z_" ++
      ascii "mxMZjJ5eT4LPTA")).getD [] )

/-- The facts about the key.  Its signature verifies under the padding of its fresh context. -/
def pssFacts : Facts where
  documents := [pssKeyval, rsa2048Jwks]
  pubkeys := [(pssPemWith (ascii "\n"), .rsaPss (spelled pssN64) 65537)]
  signatures := [(.rsa (spelled pssN64) 65537, some .sha256, pssSigned.1, pssSigned.2)]
  hashes :=
    [ (rsaText pssN64, (stubDecode (ascii "0sxCi7vnjPzvq1EG6GsSYY47YsI3RT-Ct9pX7vqC4hw")).getD []),
      (rsaText rsa2048N64,
        (stubDecode (ascii "8V4ym2Xg8U5eWcs8p0R9i0quAQ1uPum0wBXLmAGXbeY")).getD []) ]

/-- The key of the document. -/
def pssKey : Key Handle where
  kty := .rsa
  kid := ascii "k1"
  alg := []
  crv := []
  thumbprint := ascii "0sxCi7vnjPzvq1EG6GsSYY47YsI3RT-Ct9pX7vqC4hw"
  pkey := some (.rsaPss (spelled pssN64) 65537)
  hmacSecret := []

/-- RS256 in the table. -/
def rs256 : RsaScheme := ⟨ascii "RS256", .pkcs1, .sha256⟩

/-- The document is accepted. -/
theorem pssKeyval_parsed : keyvalParse pssFacts.env noParseFaults (some pssKeyval.1) (some ⟨⟩) =
    some (.ofList [pssKey]) := by
  decide +kernel

/-- The keyval document is accepted; RS256 is verified with its key under PSS, and the verifier
accepts a PSS signature under the name RS256. -/
theorem keyval_rsaPss :
    keyvalParse pssFacts.env noParseFaults (some pssKeyval.1) (some ⟨⟩) =
      some (.ofList [pssKey]) ∧
    pssKey.kty = .rsa ∧ rs256 ∈ rsaSchemes ∧
    lookupAlg pssFacts.env.haveHmac rs256.name = some rs256.row ∧
    (∃ c, verifyContext pssFacts.ossl (.rsaPss (spelled pssN64) 65537) rs256.row.digest false =
      some c ∧ c.padding = .pss ∧ ¬ rs256.Holds c) ∧
    verifyWithKey pssFacts.env (primitive pssFacts.env) pssKey rs256.row pssSigned.1 pssSigned.2 =
      .accepted := by
  refine ⟨pssKeyval_parsed, rfl, .head _, by decide, ⟨_, rfl, rfl, ?_⟩, by decide +kernel⟩
  intro h
  exact absurd h.1 (by decide)

/-- The padding of the tables. -/
theorem Facts.paddingLaws (T : Facts) : T.ossl.PaddingLaws where
  verify_rsa p md c h htype := by
    obtain rfl := Option.some.inj h
    have htype' : p.baseId = .rsa := htype
    simp [Handle.fresh, htype']
  verify_rsaPss p md c h htype := by
    obtain rfl := Option.some.inj h
    have htype' : p.baseId = .rsaPss := htype
    simp [Handle.fresh, htype']
  sign_rsa p md c h htype := by
    obtain rfl := Option.some.inj h
    have htype' : p.baseId = .rsa := htype
    simp [Handle.fresh, htype']
  sign_rsaPss p md c h htype := by
    obtain rfl := Option.some.inj h
    have htype' : p.baseId = .rsaPss := htype
    simp [Handle.fresh, htype']
  set_padding p padding c c' h := by
    obtain rfl := Option.some.inj h
    rfl
  set_saltlen p saltlen c c' h := (Option.some.inj h).symm
  set_mgf1 p md c c' h := (Option.some.inj h).symm

/-- The RSA key of the JWKS verifies RS256 under PKCS#1 v1.5; the keyval document has an
RSASSA-PSS key. -/
theorem rsa_padding_two_keys :
    (∃ p, rsa2048Key.pkey = some p ∧
      ∀ c, verifyContext pssFacts.ossl p (some .sha256) false = some c → rs256.Holds c) ∧
    ¬ (∀ F pool J, keyvalParse pssFacts.env F (some pssKeyval.1) (some pool) = some J →
      ∀ k ∈ J.walk, k.kty = .rsa → ∃ p, k.pkey = some p ∧ pssFacts.ossl.baseId p = .rsa) := by
  have h := rsa_padding (E := pssFacts.env) pssFacts.rsaComponents pssFacts.paddingLaws
  have hJ : jwksParse pssFacts.env noParseFaults (some rsa2048Jwks.1) (some ⟨⟩) =
      some (.ofList [rsa2048Key]) := by decide +kernel
  constructor
  · obtain ⟨p, hp, hs⟩ := h.1 _ (.inl ⟨_, _, _, hJ⟩) rsa2048Key (by simp) rfl
    obtain rfl := Option.some.inj hp
    obtain ⟨hnamed, -⟩ := hs rs256 (.head _) rs256.row (by decide)
    exact ⟨_, rfl, fun c hc => (hnamed c hc).mpr (.inr rfl)⟩
  · intro hall
    obtain ⟨p, hp, htype⟩ := hall noParseFaults ⟨⟩ _ pssKeyval_parsed pssKey (by simp) rfl
    obtain rfl := Option.some.inj hp
    exact absurd htype (by decide)

end NxeJwx
