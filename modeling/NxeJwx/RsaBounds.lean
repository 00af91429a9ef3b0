/-
# The bounds on RSA moduli

`nxe_jwx_parse_rsa` rejects a modulus outside [`NXE_JWX_MIN_RSA_BITS`, `NXE_JWX_MAX_RSA_BITS`],
so every RSA key of a JWKS is within them.  `nxe_jwx_jwks_parse_keyval` takes an RSA key out of
a PEM as it is: its keysets are within the bounds exactly when every RSA PEM of the document is
(`rsa_bounds`), and a PEM with a modulus of 1024 bits gives a key that the verifier uses
(`keyval_rsa1024`).
-/
import NxeJwx.Alike
import NxeJwx.Soundness

namespace NxeJwx

variable {PKey : Type}

/-! ## 1. The invariant -/

/-- The modulus of an RSA handle is within the bounds. -/
def HandleInRange (O : Ossl PKey) (p : PKey) : Prop :=
  ∃ n, O.rsaN p = some n ∧ minRsaBits ≤ BigEndian.bitLength n ∧
    BigEndian.bitLength n ≤ maxRsaBits

/-- An RSA key has a modulus within the bounds. -/
def RsaInRange (O : Ossl PKey) (k : Key PKey) : Prop :=
  k.kty = .rsa → ∃ p, k.pkey = some p ∧ HandleInRange O p

/-- The keyset holds no RSA key out of range, and so none of the three verifications runs one:
they do not depend on what the primitive would answer for such a key. -/
structure RsaBounded (E : Env PKey) (J : Jwks PKey) : Prop where
  keys : ∀ k ∈ J.walk, RsaInRange E.ossl k
  runs : ∀ crypto crypto' : Crypto PKey, (∀ k, RsaInRange E.ossl k → crypto k = crypto' k) →
    (∀ token pool, jwsVerify E crypto token (some J) pool =
      jwsVerify E crypto' token (some J) pool) ∧
    (∀ keyid alg msg sig pool, jwksVerifyRaw E crypto (some J) keyid alg msg sig pool =
      jwksVerifyRaw E crypto' (some J) keyid alg msg sig pool) ∧
    (∀ kid alg msg sig pool, jwksVerifyRawByKid E crypto (some J) kid alg msg sig pool =
      jwksVerifyRawByKid E crypto' (some J) kid alg msg sig pool)

variable {E : Env PKey}

/-- The keys decide: the verifications try keys of the keyset only. -/
theorem rsaBounded_of_keys {J : Jwks PKey} (h : ∀ k ∈ J.walk, RsaInRange E.ossl k) :
    RsaBounded E J where
  keys := h
  runs crypto crypto' hc := by
    have halike : AlikeKeysets E crypto crypto' J J :=
      alikeKeysets_of_crypto fun k hk alg msg sig => by rw [hc k (h k hk)]
    exact ⟨jwsVerify_alike halike, jwksVerifyRaw_alike halike, jwksVerifyRawByKid_alike halike⟩

/-! ## 2. The two parsers -/

/-- The key of a JWK object is within the bounds. -/
theorem JwkOrigin.rsaInRange (hr : E.ossl.RsaComponents) {e : Json} {m : Material}
    {k : Key PKey} (ho : JwkOrigin E e m k) : RsaInRange E.ossl k := by
  intro hk
  have hm : m.kty = .rsa := ho.kty.symm.trans hk
  have hadm := ho.usable.admissible
  have hmade := ho.usable.made
  have hpkey := ho.pkey
  cases m with
  | rsa n e =>
    obtain ⟨p, hp⟩ := Option.isSome_iff_exists.mp (hmade.resolve_left (by simp [Material.kty]))
    exact ⟨p, hpkey.trans hp, n, (hr n e p hp).2.1, hadm⟩
  | ec => exact absurd hm (by simp [Material.kty])
  | okp => exact absurd hm (by simp [Material.kty])
  | oct => exact absurd hm (by simp [Material.kty])

/-- The keyset of a JWKS is within the bounds. -/
theorem rsaBounded_of_jwksParse (hr : E.ossl.RsaComponents) {F : ParseFaults} {doc : Bytes}
    {pool : Pool} {J : Jwks PKey} (h : jwksParse E F (some doc) (some pool) = some J) :
    RsaBounded E J := by
  apply rsaBounded_of_keys
  intro k hk
  obtain ⟨entries, e, m, -, -, ho⟩ := mem_of_jwksParse h hk
  exact ho.rsaInRange hr

/-- The member is a PEM of an RSA or RSASSA-PSS public key under a non-empty name. -/
structure RsaPem (E : Env PKey) (member : Bytes × Json) (p : PKey) : Prop where
  name : member.1 ≠ []
  pem : ∃ pem, member.2 = .string pem ∧ pem ≠ [] ∧ E.ossl.pemReadPubkey pem = some p
  type : E.ossl.baseId p = .rsa ∨ E.ossl.baseId p = .rsaPss

theorem RsaPem.pemMember {member : Bytes × Json} {p : PKey} (h : RsaPem E member p) :
    PemMember E member p where
  name := h.name
  pem := h.pem
  supported := by rw [pkeyCrv, ktyFromPkey_rsa_iff.mpr h.type]; rfl

/-- An RSA key of a keyval document is as large as its PEM makes it. -/
theorem PemOrigin.rsaInRange_iff {member : Bytes × Json} {p : PKey} {k : Key PKey}
    (ho : PemOrigin E member p k) :
    RsaInRange E.ossl k ↔ (RsaPem E member p → HandleInRange E.ossl p) := by
  constructor
  · intro h hp
    obtain ⟨p', hp', hin⟩ := h (ho.kty.trans (ktyFromPkey_rsa_iff.mpr hp.type))
    rw [ho.handle] at hp'
    exact Option.some.inj hp' ▸ hin
  · intro h hk
    have htype := ktyFromPkey_rsa_iff.mp (ho.kty.symm.trans hk)
    exact ⟨p, ho.handle, h ⟨ho.usable.name, ho.usable.pem, htype⟩⟩

/-! ## 3. Exactly when -/

/-- The bounds hold of every keyset of a JWKS.  They hold of the keysets of a keyval document
exactly when every RSA PEM in it is within them. -/
theorem rsa_bounds (hr : E.ossl.RsaComponents) :
    (∀ F doc pool J, jwksParse E F (some doc) (some pool) = some J → RsaBounded E J) ∧
    (∀ doc, (∀ F pool J, keyvalParse E F (some doc) (some pool) = some J → RsaBounded E J) ↔
      ∀ members, KeyvalMembers E doc members → ∀ member ∈ members, ∀ p, RsaPem E member p →
        HandleInRange E.ossl p) := by
  constructor
  · intro F doc pool J h
    exact rsaBounded_of_jwksParse hr h
  · intro doc
    constructor
    · intro h members hd member hm p hp
      obtain ⟨J, hJ, k, hk, ho⟩ := pemMember_mem_of_keyvalParse ⟨⟩ hd hm hp.pemMember
      exact ho.rsaInRange_iff.mp ((h _ _ J hJ).keys k hk) hp
    · intro h F pool J hJ
      apply rsaBounded_of_keys
      intro k hk
      obtain ⟨members, member, p, hd, hm, ho⟩ := mem_of_keyvalParse hJ hk
      exact ho.rsaInRange_iff.mpr (h members hd member hm p)

/-! ## 4. Two RSA keys -/

/-- A modulus of 2048 bits, in base64url. -/
def rsa2048N64 : Bytes :=
  ascii "3s3edfuF5zUkIJ35468yu71M5EWpHoZGD8VANgkWDtY3ApbhsdRq7vETjU3hsB5QTTWWUoNwMFt3oCcEjLGI" ++
  ascii "22IBsqdDvCw2e4SZUdcuZJfcuwRskw1nrc6di18Acw4m9TgKKcY050Z9B01jwqJ4HwmzITEq700S4DyeaTWi" ++
  ascii "M7BOQeGtVvC7O04yBPMgtFw2rEFmxvN57ooeCchKxkVLrP1QVb-f2tQ_JOdeG8Uih6awPp75_dq3kcFAt1EW" ++
  ascii "_yM8GE8bCMu6SmAq8v3j2UNUvX_WdC8WUTUwJc0KJoWgSoH0f-v2XSu53bsjAP3eXm_2I1FVFiDmoISQGY8_" ++
  ascii "CHi2Gw"

/-- A modulus of 1024 bits, in base64url. -/
def rsa1024N64 : Bytes :=
  ascii "2CemU-1hZkYXL332MXysyPLCjmfevM5TcHd-FDVQHRAzh5wI43s2LL_5fGQ096rDVIS8Ksc2YcwcsqY6Rn3D" ++
  ascii "_600W01Y51-BWkd5xihw5twePRPEXJMtIz931kmWIJSVrNEiU1Ae9i4y_AFLD_wr-2vjfNE4CeHGzxSw5bMD" ++
  ascii "7EE"

/-- The number that a base64url text spells. -/
def spelled (text : Bytes) : Nat := BigEndian.ofBytes ((stubDecode text).getD [])

/-- The lines of the PEM of the 1024-bit key, and their ends in a PEM and in a JSON string. -/
def rsa1024PemWith (eol : Bytes) : Bytes :=
  ascii "-----BEGIN PUBLIC KEY-----" ++ eol ++
  ascii "MIGfMA0GCSqGSIb3DQEBAQUAA4GNADCBiQKBgQDYJ6ZT7WFmRhcvffYxfKzI8sKO" ++ eol ++
  ascii "Z968zlNwd34UNVAdEDOHnAjjezYsv/l8ZDT3qsNUhLwqxzZhzByypjpGfcP/rTRb" ++ eol ++
  ascii "TVjnX4FaR3nGKHDm3B49E8Rcky0jP3fWSZYglJWs0SJTUB72LjL8AUsP/Cv7a+N8" ++ eol ++
  ascii "0TgJ4cbPFLDlswPsQQIDAQAB" ++ eol ++
  ascii "-----END PUBLIC KEY-----" ++ eol

/-- A keyval document with the 1024-bit key under the kid `k1`. -/
def rsa1024Keyval : Bytes × Json :=
  ( ascii "\x7b\"k1\":\"" ++ rsa1024PemWith (ascii "\\n") ++ ascii "\"\x7d",
    .object [(ascii "k1", .string (rsa1024PemWith (ascii "\n")))] )

/-- A JWKS with the 2048-bit key. -/
def rsa2048Jwks : Bytes × Json :=
  ( ascii "\x7b\"keys\":[\x7b\"kty\":\"RSA\",\"e\":\"AQAB\",\"n\":\"" ++ rsa2048N64 ++
      ascii "\"\x7d]\x7d",
    .object [(ascii "keys", .array [.object [ (ascii "kty", .string (ascii "RSA")),
      (ascii "e", .string (ascii "AQAB")), (ascii "n", .string rsa2048N64) ]])] )

/-- The canonical text of an RSA key with exponent 65537. -/
def rsaText (n64 : Bytes) : Bytes :=
  ascii "\x7b\"e\":\"AQAB\",\"kty\":\"RSA\",\"n\":\"" ++ n64 ++ ascii "\"\x7d"

/-- The facts about the two keys. -/
def rsaFacts : Facts where
  documents := [rsa1024Keyval, rsa2048Jwks]
  pubkeys := [(rsa1024PemWith (ascii "\n"), .rsa (spelled rsa1024N64) 65537)]
  hashes :=
    [ (rsaText rsa1024N64,
        (stubDecode (ascii "ZeP5HkY-nCbFb7V2nbnfhzUaYzmGZHBEmSa0UWPHvnU")).getD []),
      (rsaText rsa2048N64,
        (stubDecode (ascii "8V4ym2Xg8U5eWcs8p0R9i0quAQ1uPum0wBXLmAGXbeY")).getD []) ]

/-- The key of the 1024-bit document. -/
def rsa1024Key : Key Handle where
  kty := .rsa
  kid := ascii "k1"
  alg := []
  crv := []
  thumbprint := ascii "ZeP5HkY-nCbFb7V2nbnfhzUaYzmGZHBEmSa0UWPHvnU"
  pkey := some (.rsa (spelled rsa1024N64) 65537)
  hmacSecret := []

/-- The key of the 2048-bit document. -/
def rsa2048Key : Key Handle where
  kty := .rsa
  kid := []
  alg := []
  crv := []
  thumbprint := ascii "8V4ym2Xg8U5eWcs8p0R9i0quAQ1uPum0wBXLmAGXbeY"
  pkey := some (.rsa (spelled rsa2048N64) 65537)
  hmacSecret := []

/-- The keyval document is accepted, and its key has a modulus of 1024 bits. -/
theorem keyval_rsa1024 :
    keyvalParse rsaFacts.env noParseFaults (some rsa1024Keyval.1) (some ⟨⟩) =
      some (.ofList [rsa1024Key]) ∧
    rsa1024Key.kty = .rsa ∧ BigEndian.bitLength (spelled rsa1024N64) = 1024 ∧
    ¬ RsaBounded rsaFacts.env (.ofList [rsa1024Key]) := by
  refine ⟨by decide +kernel, rfl, by decide +kernel, ?_⟩
  intro h
  obtain ⟨p, hp, n, hn, hle, -⟩ := h.keys rsa1024Key (by simp) rfl
  obtain rfl := Option.some.inj hp
  obtain rfl := Option.some.inj hn
  exact absurd hle (by decide +kernel)

/-- The JWKS with the 2048-bit key is within the bounds; the keyval document with the 1024-bit
key is not, because of its PEM. -/
theorem rsa_bounds_two_keys :
    RsaBounded rsaFacts.env (.ofList [rsa2048Key]) ∧
    ¬ (∀ F pool J, keyvalParse rsaFacts.env F (some rsa1024Keyval.1) (some pool) = some J →
      RsaBounded rsaFacts.env J) := by
  have h := rsa_bounds rsaFacts.rsaComponents (E := rsaFacts.env)
  refine ⟨h.1 noParseFaults rsa2048Jwks.1 ⟨⟩ _ (by decide +kernel), ?_⟩
  intro hall
  have hmem : KeyvalMembers rsaFacts.env rsa1024Keyval.1
      [(ascii "k1", .string (rsa1024PemWith (ascii "\n")))] :=
    ⟨by decide +kernel, rsaFacts.parse_eq (List.nil_append _).symm rfl (by decide +kernel),
      by decide⟩
  have hpem : RsaPem rsaFacts.env (ascii "k1", .string (rsa1024PemWith (ascii "\n")))
      (.rsa (spelled rsa1024N64) 65537) :=
    ⟨by decide, ⟨_, rfl, by decide, by decide +kernel⟩, .inl rfl⟩
  obtain ⟨n, hn, hle, -⟩ := (h.2 rsa1024Keyval.1).mp hall _ hmem _ (by simp) _ hpem
  obtain rfl := Option.some.inj hn
  exact absurd hle (by decide +kernel)

end NxeJwx
