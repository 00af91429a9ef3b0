/-
# From an accepted token back to the document

What a token that verifies says about the two documents behind the decision: the token's own
text and the document the keyset was parsed from.

Against a JWKS, some entry of the `keys` array describes key material, not for encryption, of
the type and on the curve of the token's algorithm and not pinned to another, which accepts the
last segment of the token as a signature on exactly the bytes before the second dot
(`JwkAccepts`).  Against a keyval document it is a member whose PEM does (`PemAccepts`).
-/
import NxeJwx.Policy
import NxeJwx.Keyval
import NxeJwx.Facts

namespace NxeJwx

variable {PKey : Type}

/-! ## 1. What acceptance means -/

/-- `T` is `h.p.s`, and `trial` accepts the decoding of `s` as a signature on `h.p`, the bytes
of `T` before its second dot. -/
def SignedToken (E : Env PKey) (T : Bytes) (trial : Bytes → Bytes → TryEach.Trial) : Prop :=
  ∃ h p s sig, T = Separator.three dot h p s ∧ dot ∉ h ∧ dot ∉ p ∧ dot ∉ s ∧
    E.b64.decode s = some sig ∧ trial (h ++ dot :: p) sig = .accepted

/-- The primitive that an algorithm names, on bare key material. -/
def materialTrial (E : Env PKey) (m : Material) (alg : Alg) : Bytes → Bytes → TryEach.Trial :=
  primitive E { (Key.zero : Key PKey) with pkey := m.pkey E.ossl, hmacSecret := m.secret } alg

/-- The primitive that an algorithm names, on a bare handle. -/
def handleTrial (E : Env PKey) (pkey : PKey) (alg : Alg) : Bytes → Bytes → TryEach.Trial :=
  primitive E { (Key.zero : Key PKey) with pkey := some pkey } alg

/-- A JWK object accepts the token `T` under `alg`: its labels allow it, and OpenSSL accepts the
signature under the material it describes, with the digest and the padding of `alg`. -/
structure JwkAccepts (E : Env PKey) (T : Bytes) (alg : Alg) (e : Json) : Prop where
  use : e.stringAt (ascii "use") ≠ some (ascii "enc")
  kty : e.stringAt (ascii "kty") = some alg.family.kty.jwkName
  curve : ∀ name, alg.ecCurve = some name →
    ∃ c ∈ ecCurves, c.osslName = name ∧ e.stringAt (ascii "crv") = some c.jwkCrv
  pin : ∀ s, e.stringAt (ascii "alg") = some s → s ≠ [] → s = alg.name
  signed : ∃ m, Describes E e m ∧ SignedToken E T (materialTrial E m alg) ∧
    ∀ msg sig, materialTrial E m alg msg sig = .accepted ↔
      Authentic E alg (m.pkey E.ossl) m.secret msg sig
  hmac : alg.family = .hmac → ∃ secret, OctetsAt E e (ascii "k") secret ∧
    SignedToken E T (hmacVerify E.ossl secret alg.digest)

/-- A member of a keyval document accepts the token `T` under `alg`, which is not an HMAC. -/
structure PemAccepts (E : Env PKey) (T : Bytes) (alg : Alg) (member : Bytes × Json)
    (pkey : PKey) : Prop where
  pem : PemMember E member pkey
  kty : ktyFromPkey E.ossl pkey = alg.family.kty
  signed : SignedToken E T (handleTrial E pkey alg)
  openssl : ∀ msg sig, handleTrial E pkey alg msg sig = .accepted ↔
    Authentic E alg (some pkey) [] msg sig
  hmac : alg.family ≠ .hmac

variable {E : Env PKey}

/-! ## 2. The accepted key -/

/-- A decoded token that a key accepts is a token signed under that key: what was read is what
is verified. -/
theorem signedToken_of_decode {f : DecodeFaults} {T : Bytes} {pool : Pool} {t : Token}
    (hd : decode E f (some T) (some pool) = some t) (hsig : t.signature ≠ [])
    {trial : Bytes → Bytes → TryEach.Trial}
    (ht : trial t.signingInput t.signature = .accepted) : SignedToken E T trial := by
  obtain ⟨h, p, s, hdec⟩ := decode_sound hd
  have hs := hdec.signature
  by_cases h0 : s = []
  · rw [if_pos h0] at hs
    exact absurd hs hsig
  · rw [if_neg h0] at hs
    refine ⟨h, p, s, t.signature, hdec.cut, hdec.dotFree.1, hdec.dotFree.2.1,
      hdec.dotFree.2.2, hs, ?_⟩
    rw [← hdec.signingInput]
    exact ht

/-- The HMAC family runs an HMAC under the secret. -/
theorem primitive_hmac {k : Key PKey} {alg : Alg} (hf : alg.family = .hmac) {msg sig : Bytes}
    (h : primitive E k alg msg sig = .accepted) :
    hmacVerify E.ossl k.hmacSecret alg.digest msg sig = .accepted := by
  simp only [primitive, hf] at h
  split at h
  · exact h
  · exact absurd h (by simp)

/-- The entry of an accepted key accepts the token. -/
theorem JwkOrigin.accepts (hg : E.ossl.EcGroup) {e : Json} {m : Material} {k : Key PKey}
    (ho : JwkOrigin E e m k) {alg : Alg} (ha : alg ∈ algs E.haveHmac)
    (hc : keyCompatible E.ossl k alg = true) {T : Bytes}
    (hs : SignedToken E T (primitive E k alg)) : JwkAccepts E T alg e := by
  have hkty : m.kty = alg.family.kty := ho.kty.symm.trans (keyCompatible_kty hc)
  have hprim : primitive E k alg = materialTrial E m alg := by
    rw [materialTrial, primitive_congr]
    · exact ho.pkey
    · exact ho.hmacSecret
  refine {
    use := ho.usable.use
    kty := by rw [ho.usable.describes.kty_eq, hkty]
    curve := ?_
    pin := ?_
    signed := ⟨m, ho.usable.describes, hprim ▸ hs, fun _ _ => primitive_accepted_iff ha⟩
    hmac := ?_ }
  · intro name hname
    obtain ⟨p, hp, hgroup⟩ := keyCompatible_curve hc ha hname
    have hec : m.kty = .ec := by
      rw [hkty, (algs_ecCurve alg ha).mp (by rw [hname]; rfl)]
      rfl
    have hmp : m.pkey E.ossl = some p := ho.pkey.symm.trans hp
    cases ho.usable.describes with
    | rsa => exact absurd hec (by simp [Material.kty])
    | okp => exact absurd hec (by simp [Material.kty])
    | oct => exact absurd hec (by simp [Material.kty])
    | @ec c x y _ row crv =>
      refine ⟨c, row, ?_, crv⟩
      exact Option.some.inj ((hg _ _ _ hmp).symm.trans hgroup)
  · intro s hs hne
    have hk : k.alg = s := by rw [ho.alg, hs]; rfl
    rcases keyCompatible_pin hc ha with h0 | h0
    · exact absurd (hk.symm.trans h0) hne
    · exact hk.symm.trans h0
  · intro hf
    have hoct : m.kty = .oct := by rw [hkty, hf]; rfl
    cases ho.usable.describes with
    | rsa => exact absurd hoct (by simp [Material.kty])
    | ec => exact absurd hoct (by simp [Material.kty])
    | okp => exact absurd hoct (by simp [Material.kty])
    | @oct secret _ _ hsec =>
      refine ⟨secret, hsec, ?_⟩
      obtain ⟨h, p, s, sig, hcut, hh, hp, hs', hdec, hacc⟩ := hs
      refine ⟨h, p, s, sig, hcut, hh, hp, hs', hdec, ?_⟩
      have hmac := primitive_hmac hf hacc
      rwa [ho.hmacSecret] at hmac

/-- The member of an accepted key accepts the token. -/
theorem PemOrigin.accepts {member : Bytes × Json} {pkey : PKey} {k : Key PKey}
    (ho : PemOrigin E member pkey k) {alg : Alg} (ha : alg ∈ algs E.haveHmac)
    (hc : keyCompatible E.ossl k alg = true) {T : Bytes}
    (hs : SignedToken E T (primitive E k alg)) : PemAccepts E T alg member pkey := by
  have hkty : ktyFromPkey E.ossl pkey = alg.family.kty :=
    ho.kty.symm.trans (keyCompatible_kty hc)
  have hprim : primitive E k alg = handleTrial E pkey alg := by
    rw [handleTrial, primitive_congr]
    · exact ho.handle
    · exact ho.hmacSecret
  refine ⟨ho.usable, hkty, hprim ▸ hs, fun _ _ => primitive_accepted_iff ha, ?_⟩
  intro hf
  exact ktyFromPkey_ne_oct E.ossl pkey (by rw [hkty, hf]; rfl)

/-! ## 3. The document -/

/-- A token that verifies against the keyset of a document was accepted by an entry of that
document: by a JWK object of a JWKS, or by the PEM of a keyval member. -/
theorem accepted_by_document (hg : E.ossl.EcGroup) {f : DecodeFaults} {T : Bytes} {pool : Pool}
    {t : Token} (hd : decode E f (some T) (some pool) = some t) :
    (∀ F doc pool pool' J, jwksParse E F (some doc) (some pool) = some J →
      jwsVerify E (primitive E) (some t) (some J) (some pool') = .ok →
      ∃ entries, KeysArray E doc entries ∧ ∃ e ∈ entries, ∃ alg ∈ algs E.haveHmac,
        tokenAlg (some t) = some alg.name ∧ JwkAccepts E T alg e) ∧
    (∀ F doc pool pool' J, keyvalParse E F (some doc) (some pool) = some J →
      jwsVerify E (primitive E) (some t) (some J) (some pool') = .ok →
      ∃ members, KeyvalMembers E doc members ∧ ∃ member ∈ members, ∃ pkey,
        ∃ alg ∈ algs E.haveHmac, tokenAlg (some t) = some alg.name ∧
          PemAccepts E T alg member pkey) := by
  constructor
  · intro F doc pool pool' J hJ hv
    obtain ⟨alg, ha, hn, hne, hsig, k, hk, -, hc, hacc⟩ := jwsVerify_ok_iff.mp hv
    obtain ⟨entries, e, m, hdoc, he, ho⟩ := mem_of_jwksParse hJ hk
    have htalg : tokenAlg (some t) = some alg.name :=
      tokenAlg_eq_some_iff.mpr ⟨hn.symm, hn ▸ hne⟩
    exact ⟨entries, hdoc, e, he, alg, ha, htalg,
      ho.accepts hg ha hc (signedToken_of_decode hd hsig hacc)⟩
  · intro F doc pool pool' J hJ hv
    obtain ⟨alg, ha, hn, hne, hsig, k, hk, -, hc, hacc⟩ := jwsVerify_ok_iff.mp hv
    obtain ⟨members, member, pkey, hdoc, hm, ho⟩ := mem_of_keyvalParse hJ hk
    have htalg : tokenAlg (some t) = some alg.name :=
      tokenAlg_eq_some_iff.mpr ⟨hn.symm, hn ▸ hne⟩
    exact ⟨members, hdoc, member, hm, pkey, alg, ha, htalg,
      ho.accepts ha hc (signedToken_of_decode hd hsig hacc)⟩

/-- The decoding of the Ed25519 token. -/
def edDecoded : Token where
  header := edHeader.2
  payload := edClaims.2
  alg := ascii "EdDSA"
  kid := []
  signingInput := edSigningInput
  signature := edSignature

/-- The decoding of the Ed25519 token with a kid. -/
def edNamedDecoded : Token where
  header := edNamedHeader.2
  payload := edClaims.2
  alg := ascii "EdDSA"
  kid := ascii "k1"
  signingInput := edNamedSigningInput
  signature := edNamedSignature

/-- The token decodes. -/
theorem decode_edToken (documents : List (Bytes × Json)) :
    decode (edFacts documents).env noDecodeFaults (some edToken) (some ⟨⟩) = some edDecoded := by
  exact decode_complete (h := stubEncode edHeader.1) (p := stubEncode edClaims.1)
    (s := edSignature64) {
      size := by decide +kernel
      cut := by decide +kernel
      dotFree := by decide +kernel
      header_ne := by decide
      payload_ne := by decide
      header_size := by decide +kernel
      header := ⟨edHeader.1, stubDecodeLoop_encode _ 0,
        Facts.parse_strings (edFacts documents) (by decide +kernel :
          StringObject.readObject edHeader.1 =
            some [(ascii "alg", ascii "EdDSA"), (ascii "typ", ascii "JWT")]), rfl⟩
      payload := ⟨edClaims.1, stubDecodeLoop_encode _ 0,
        Facts.parse_strings (edFacts documents) (by decide +kernel :
          StringObject.readObject edClaims.1 = some [(ascii "sub", ascii "joe")]), rfl⟩
      signature := by
        rw [if_neg (by decide)]
        exact (by decide +kernel : stubDecode edSignature64 = some edSignature)
      signingInput := rfl
      alg := by decide
      kid := by decide }

/-- The Ed25519 token, against the two documents with its key. -/
theorem accepted_by_document_ed25519 :
    (∃ entries, KeysArray (edFacts []).env edJwks.1 entries ∧ ∃ e ∈ entries,
      ∃ alg ∈ algs true, tokenAlg (some edDecoded) = some alg.name ∧
        JwkAccepts (edFacts []).env edToken alg e) ∧
    (∃ members, KeyvalMembers (edFacts []).env edKeyval.1 members ∧ ∃ member ∈ members,
      ∃ pkey, ∃ alg ∈ algs true, tokenAlg (some edDecoded) = some alg.name ∧
        PemAccepts (edFacts []).env edToken alg member pkey) := by
  have h := accepted_by_document (edFacts []).ecGroup (decode_edToken [])
  refine ⟨h.1 noParseFaults edJwks.1 ⟨⟩ ⟨⟩ (.ofList [edKey []]) ?_ ?_,
    h.2 noParseFaults edKeyval.1 ⟨⟩ ⟨⟩ (.ofList [edKey (ascii "k1")]) ?_ ?_⟩
  · decide +kernel
  · decide +kernel
  · decide +kernel
  · decide +kernel

end NxeJwx
