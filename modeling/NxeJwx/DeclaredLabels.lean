/-
# What an entry declares, and what its key is labelled with

`nxe_jwx_string_field` gives the same answer for a member that is absent and for one that is not
a string, and `nxe_jwx_parse_one_key` leaves the label of the key empty in both cases.  An empty
`alg` is no pin and an empty kid makes a key a fallback, so two things that an entry can say
are lost.

An `alg` pins exactly when it is a non-empty string (`alg_pin`).  The kid-less keys of a JWKS
come from entries without a `kid` exactly when every `kid` of a usable entry is a string
(`kid_declared`); an empty one is looked for, and rejected.
-/
import NxeJwx.ThumbprintSelection
import NxeJwx.Soundness

namespace NxeJwx

open TryEach

variable {PKey : Type} {E : Env PKey}

/-! ## 1. The `alg` of an entry -/

/-- The primitive accepts signatures under `k` only, so a success is the work of that key. -/
def OnlyKey (crypto : Crypto PKey) (k : Key PKey) : Prop :=
  ∀ k' alg msg sig, crypto k' alg msg sig = .accepted → k' = k

/-- Whatever the primitive answers for it, the key `k` of `J` produces `NGX_OK` for no algorithm
but the one that `declared` spells. -/
structure Pinned (E : Env PKey) (J : Jwks PKey) (k : Key PKey) (declared : Json) : Prop where
  token : ∀ crypto t pool, OnlyKey crypto k →
    jwsVerify E crypto (some t) (some J) (some pool) = .ok → declared = .string t.alg
  raw : ∀ crypto keyid algStr msg sig pool, OnlyKey crypto k →
    jwksVerifyRaw E crypto (some J) (some keyid) algStr (some msg) (some sig) (some pool) = .ok →
      ∃ alg, resolveAlg E k algStr = some alg ∧ declared = .string alg.name
  rawByKid : ∀ crypto kid algStr msg sig pool, OnlyKey crypto k →
    jwksVerifyRawByKid E crypto (some J) (some kid) algStr (some msg) (some sig) (some pool)
      = .ok → ∃ alg, resolveAlg E k algStr = some alg ∧ declared = .string alg.name

/-- A key labelled with an algorithm is pinned to it. -/
theorem pinned_of_alg {J : Jwks PKey} {k : Key PKey} (hk : k.alg ≠ []) :
    Pinned E J k (.string k.alg) := by
  have raw : ∀ (crypto : Crypto PKey) (k' : Key PKey) algStr msg sig, OnlyKey crypto k →
      verifyRawWithKey E crypto k' algStr msg sig = .ok →
        ∃ alg, resolveAlg E k algStr = some alg ∧ Json.string k.alg = .string alg.name := by
    intro crypto k' algStr msg sig honly hok
    obtain ⟨alg, hres, hver⟩ := verifyRawWithKey_ok_iff.mp hok
    obtain ⟨hc, hacc⟩ := verifyWithKey_accepted_iff.mp hver
    obtain rfl := honly k' alg msg sig hacc
    exact ⟨alg, hres, by rw [(keyCompatible_pin hc (resolveAlg_mem hres)).resolve_left hk]⟩
  constructor
  · intro crypto t pool honly hok
    obtain ⟨alg, ha, hn, -, -, k', -, -, hc, hacc⟩ := jwsVerify_ok_iff.mp hok
    obtain rfl := honly k' alg _ _ hacc
    rw [(keyCompatible_pin hc ha).resolve_left hk, hn]
  · intro crypto keyid algStr msg sig pool honly hok
    obtain ⟨-, k', -, hok'⟩ := jwksVerifyRaw_ok_iff.mp hok
    exact raw crypto k' algStr msg sig honly hok'
  · intro crypto kid algStr msg sig pool honly hok
    obtain ⟨-, -, k', -, -, hok'⟩ := jwksVerifyRawByKid_ok_iff.mp hok
    exact raw crypto k' algStr msg sig honly hok'

/-- The algorithm table serves every key type and every curve. -/
theorem algs_serve (haveHmac : Bool) :
    (∃ a ∈ algs haveHmac, a.family = .rsa) ∧ (∃ a ∈ algs haveHmac, a.family = .eddsa) ∧
    (haveHmac = true → ∃ a ∈ algs haveHmac, a.family = .hmac) ∧
    ∀ c ∈ ecCurves, ∃ a ∈ algs haveHmac, a.family = .ecdsa ∧ a.ecCurve = some c.osslName := by
  cases haveHmac <;> decide

/-- A key without `alg` is compatible with some algorithm. -/
theorem KeyInv.compatible {k : Key PKey} (h : KeyInv E.ossl k)
    (hmac : k.kty = .oct → E.haveHmac = true) (halg : k.alg = []) :
    ∃ alg ∈ algs E.haveHmac, keyCompatible E.ossl k alg = true := by
  obtain ⟨hrsa, hokp, hoct, hec⟩ := algs_serve E.haveHmac
  cases h with
  | rsa kty =>
    obtain ⟨a, ha, hf⟩ := hrsa
    exact ⟨a, ha, by simp [keyCompatible, halg, hf, kty]⟩
  | ec kty pkey _ row group =>
    obtain ⟨a, ha, hf, hcurve⟩ := hec _ (lookupEcCurve_eq_some_iff.mp row).1
    exact ⟨a, ha, by simp [keyCompatible, halg, hf, kty, hcurve, ecCurveMatches, pkey, group]⟩
  | okp kty pkey row type =>
    obtain ⟨a, ha, hf⟩ := hokp
    refine ⟨a, ha, ?_⟩
    rcases okpCurves_nid _ (lookupOkpCurve_eq_some_iff.mp row).1 with hnid | hnid <;>
      simp [keyCompatible, halg, hf, kty, pkey, type, hnid]
  | oct kty =>
    obtain ⟨a, ha, hf⟩ := hoct (hmac kty)
    exact ⟨a, ha, by simp [keyCompatible, halg, hf, kty]⟩

/-- A key without `alg` verifies a token for some algorithm, if the primitive accepts. -/
theorem Pinned.alg_ne {J : Jwks PKey} {k : Key PKey} {declared : Json}
    (h : Pinned E J k declared) (hk : k ∈ J.walk) (hinv : KeyInv E.ossl k)
    (hmac : k.kty = .oct → E.haveHmac = true) (halg : k.alg = []) :
    ∃ s, s ≠ [] ∧ declared = .string s := by
  classical
  obtain ⟨alg, ha, hc⟩ := hinv.compatible hmac halg
  let crypto : Crypto PKey := fun k' _ _ _ => if k' = k then .accepted else .rejected
  have honly : OnlyKey crypto k := by
    intro k' alg' msg sig hacc
    by_contra hne
    exact absurd hacc (by simp [crypto, hne])
  -- a token without a kid may be tried under every key
  let t : Token := ⟨.null, .null, alg.name, [], [], [0]⟩
  have hok : jwsVerify E crypto (some t) (some J) (some ⟨⟩) = .ok := by
    refine jwsVerify_ok_iff.mpr ⟨alg, ha, rfl, (algs_name_ne _ alg ha).1, by simp [t], k, hk, ?_,
      hc, by simp [crypto]⟩
    simp [tokenKid, t, Eligible]
  exact ⟨alg.name, (algs_name_ne _ alg ha).1, h.token crypto t ⟨⟩ honly hok⟩

/-- Every usable entry has its key in the keyset, and where the entry has an `alg` that key is
pinned to it exactly when the `alg` is a non-empty string. -/
theorem alg_pin (hl : E.ossl.KeyLaws) {F : ParseFaults} {doc : Bytes} {pool : Pool}
    {J : Jwks PKey} (hJ : jwksParse E F (some doc) (some pool) = some J) {entries : List Json}
    (hd : KeysArray E doc entries) :
    ∀ e ∈ entries, ∀ declared, e.objectGet (ascii "alg") = some declared →
      ∀ m, Usable E e m → (∃ k ∈ J.walk, JwkOrigin E e m k) ∧
        ∀ k ∈ J.walk, JwkOrigin E e m k →
          (Pinned E J k declared ↔ ∃ s, s ≠ [] ∧ declared = .string s) := by
  intro e he declared hdecl m hm
  refine ⟨usable_mem_of_jwksParse hJ hd he hm, ?_⟩
  intro k hk ho
  have halg : k.alg = (Json.stringOf declared).getD [] := by
    rw [ho.alg, Json.stringAt, hdecl, Option.bind_some]
  constructor
  · intro hpin
    by_cases hne : k.alg = []
    · refine hpin.alg_ne hk (ho.keyInv_and_keyMaterial hl).1 ?_ hne
      intro hoct
      have hkty := ho.kty.symm.trans hoct
      cases hm.describes with
      | oct hmac => exact hmac
      | rsa | ec | okp => exact absurd hkty (by simp [Material.kty])
    · cases declared with
      | string s => exact ⟨s, by rwa [halg] at hne, rfl⟩
      | null | boolean | integer | real | array | object => exact absurd halg hne
  · rintro ⟨s, hs, rfl⟩
    obtain rfl : k.alg = s := halg
    exact pinned_of_alg hs

/-! ## 2. The `kid` of an entry -/

/-- For a token whose kid no key carries, the run of the verification, its log included, does
not depend on what the primitive answers for the keys outside `P`. -/
def TriesOnly (E : Env PKey) (J : Jwks PKey) (P : Key PKey → Prop) : Prop :=
  ∀ t kid, tokenKid (some t) = some kid → (∀ k ∈ J.walk, k.kid ≠ kid) →
    ∀ crypto crypto' : Crypto PKey, (∀ k ∈ J.walk, P k → crypto k = crypto' k) →
      ∀ pool, jwsVerifyRun E crypto (some t) (some J) (some pool) =
        jwsVerifyRun E crypto' (some t) (some J) (some pool)

/-- Whatever the keyset, only its kid-less keys are tried for a kid that no key carries. -/
theorem triesOnly_kidless (J : Jwks PKey) : TriesOnly E J fun k => k.kid = [] := by
  intro t kid hkid hnone crypto crypto' hagree pool
  have hpasses : ∀ alg msg sig,
      passes (fun k => verifyWithKey E crypto k alg msg sig) (some kid) J =
        passes (fun k => verifyWithKey E crypto' k alg msg sig) (some kid) J := by
    intro alg msg sig
    have hone : passOne (fun k => verifyWithKey E crypto k alg msg sig) kid J =
        passOne (fun k => verifyWithKey E crypto' k alg msg sig) kid J := by
      apply tryEach_congr
      intro k hk helig
      rw [Bool.and_eq_true, strEq_iff] at helig
      exact absurd helig.2.symm (hnone k hk)
    have htwo : ∀ r, passTwo (fun k => verifyWithKey E crypto k alg msg sig) true J r =
        passTwo (fun k => verifyWithKey E crypto' k alg msg sig) true J r := by
      intro r
      apply tryEach_congr
      intro k hk helig
      have hempty : k.kid = [] := by simpa using helig
      simp only [verifyWithKey, hagree k hk hempty]
    simp only [passes, hone, htwo, Option.isSome_some]
  simp only [jwsVerifyRun, hkid, hpasses]

theorem TriesOnly.mono {J : Jwks PKey} {P Q : Key PKey → Prop} (h : TriesOnly E J P)
    (hPQ : ∀ k ∈ J.walk, P k → Q k) : TriesOnly E J Q := by
  intro t kid hkid hnone crypto crypto' hagree
  apply h t kid hkid hnone crypto crypto'
  intro k hk hp
  exact hagree k hk (hPQ k hk hp)

/-- The key comes from no entry that has a `kid` member. -/
def FromUnlabelled (E : Env PKey) (entries : List Json) (k : Key PKey) : Prop :=
  ∀ e ∈ entries, ∀ m, JwkOrigin E e m k → e.objectGet (ascii "kid") = none

/-- The kid-less keys are those whose entry has no `kid`, and only these are tried for an
unknown kid. -/
structure KidDeclared (E : Env PKey) (entries : List Json) (J : Jwks PKey) : Prop where
  kidless : ∀ k ∈ J.walk, k.kid = [] → FromUnlabelled E entries k
  tried : TriesOnly E J (FromUnlabelled E entries)

/-- In a JWKS an entry that has a `kid` gives a kid-less key exactly when the `kid` is not a
string.  A keyval document gives no kid-less key at all. -/
theorem kid_declared (E : Env PKey) :
    (∀ F doc pool J entries, jwksParse E F (some doc) (some pool) = some J →
      KeysArray E doc entries →
        (KidDeclared E entries J ↔ ∀ e ∈ entries, (∃ m, Usable E e m) →
          ∀ declared, e.objectGet (ascii "kid") = some declared → ∃ s, declared = .string s)) ∧
    (∀ F doc pool J, keyvalParse E F (some doc) (some pool) = some J →
      (∀ k ∈ J.walk, k.kid ≠ []) ∧ TriesOnly E J fun _ => False) := by
  constructor
  · intro F doc pool J entries hJ hd
    constructor
    · rintro ⟨hkidless, -⟩ e he ⟨m, hm⟩ declared hdecl
      obtain ⟨k, hk, ho⟩ := usable_mem_of_jwksParse hJ hd he hm
      have hkid : k.kid = (Json.stringOf declared).getD [] := by
        rw [ho.kid, Json.stringAt, hdecl, Option.bind_some]
      cases declared with
      | string s => exact ⟨s, rfl⟩
      | null | boolean | integer | real | array | object =>
        exact absurd (hkidless k hk hkid e he m ho) (by rw [hdecl]; simp)
    · intro hstring
      have hkidless : ∀ k ∈ J.walk, k.kid = [] → FromUnlabelled E entries k := by
        intro k _ hempty e he m ho
        by_contra hne
        obtain ⟨declared, hdecl⟩ := Option.ne_none_iff_exists'.mp hne
        obtain ⟨s, rfl⟩ := hstring e he ⟨m, ho.usable⟩ declared hdecl
        have hkid : e.stringAt (ascii "kid") = some s := Json.stringAt_eq_some_iff.mpr hdecl
        -- an empty string would have been rejected
        have hs : s = [] := by
          rw [ho.kid, hkid] at hempty
          exact hempty
        exact ho.usable.kid (hs ▸ hkid)
      exact ⟨hkidless, (triesOnly_kidless J).mono hkidless⟩
  · intro F doc pool J hJ
    have hkid : ∀ k ∈ J.walk, k.kid ≠ [] := by
      intro k hk
      obtain ⟨members, member, p, -, -, ho⟩ := mem_of_keyvalParse hJ hk
      rw [ho.kid]
      exact ho.usable.name
    exact ⟨hkid, (triesOnly_kidless J).mono fun k hk hempty => hkid k hk hempty⟩

/-! ## 3. Two entries that say more than their keys -/

/-- A JWKS with the Ed25519 key under one label, and the text of its value. -/
def edLabelledDoc (name text : Bytes) (value : Json) : Bytes × Json :=
  ( ascii "\x7b\"keys\":[\x7b\"kty\":\"OKP\",\"crv\":\"Ed25519\",\"x\":\"" ++ edX64 ++
      ascii "\",\"" ++ name ++ ascii "\":" ++ text ++ ascii "\x7d]\x7d",
    .object [(ascii "keys", .array [edJwk [(name, value)]])] )

/-- The `alg` is the empty string. -/
def edEmptyAlg : Bytes × Json := edLabelledDoc (ascii "alg") (ascii "\"\"") (.string [])

/-- The `kid` is a number. -/
def edNumericKid : Bytes × Json := edLabelledDoc (ascii "kid") (ascii "5") (.integer 5)

/-- The one entry of a labelled document. -/
theorem keysArray_labelled {name text : Bytes} {value : Json}
    (hsize : (edLabelledDoc name text value).1.length ≤ maxJwksSize)
    (hnew : [edJwks, edKeyval].all
      (fun d => !(d.1 == (edLabelledDoc name text value).1)) = true)
    (hread : StringObject.readObject (edLabelledDoc name text value).1 = none) :
    KeysArray (edFacts [edLabelledDoc name text value]).env (edLabelledDoc name text value).1
      [edJwk [(name, value)]] where
  size := ⟨by simp [edLabelledDoc, ascii], hsize⟩
  parse := ⟨_, @Facts.parse_eq _ _ [] (edLabelledDoc name text value) rfl hnew
    hread, rfl, rfl⟩
  count := by simp [maxJwksKeys]

/-- It is where the one key comes from. -/
theorem origin_labelled {E : Env Handle} {doc : Bytes} {e : Json} {k : Key Handle}
    (hJ : jwksParse E noParseFaults (some doc) (some ⟨⟩) = some (.ofList [k]))
    (hd : KeysArray E doc [e]) : ∃ m, JwkOrigin E e m k := by
  obtain ⟨entries, e', m, hd', he', ho⟩ := mem_of_jwksParse hJ (k := k) (by simp)
  obtain rfl := hd.unique hd'
  obtain rfl := List.mem_singleton.mp he'
  exact ⟨m, ho⟩

/-- A primitive that accepts under one key only. -/
def onlyUnder (crypto : Crypto Handle) (k : Key Handle) : Crypto Handle :=
  fun k' alg msg sig => if k' = k then crypto k' alg msg sig else .rejected

theorem onlyKey_onlyUnder (crypto : Crypto Handle) (k : Key Handle) :
    OnlyKey (onlyUnder crypto k) k := by
  intro k' alg msg sig hacc
  by_contra hne
  exact absurd hacc (by simp [onlyUnder, hne])

/-- An entry that declares the empty `alg` verifies a token for `EdDSA`. -/
theorem alg_empty_unpinned :
    jwksParse (edFacts [edEmptyAlg]).env noParseFaults (some edEmptyAlg.1) (some ⟨⟩) =
      some (.ofList [edKey []]) ∧
    (edJwk [(ascii "alg", .string [])]).objectGet (ascii "alg") = some (.string []) ∧
    jwsVerify (edFacts [edEmptyAlg]).env (primitive (edFacts [edEmptyAlg]).env) (some edDecoded)
      (some (.ofList [edKey []])) (some ⟨⟩) = .ok ∧
    ¬ Pinned (edFacts [edEmptyAlg]).env (.ofList [edKey []]) (edKey []) (.string []) := by
  refine ⟨by decide +kernel, rfl, by decide +kernel, ?_⟩
  intro h
  have hok := h.token (onlyUnder (primitive (edFacts [edEmptyAlg]).env) (edKey [])) edDecoded ⟨⟩
    (onlyKey_onlyUnder _ _) (by decide +kernel)
  exact absurd (Json.string.inj hok) (by decide)

/-- The `alg` is the one of the token. -/
def edDeclaredAlg : Bytes × Json :=
  edLabelledDoc (ascii "alg") (ascii "\"EdDSA\"") (.string (ascii "EdDSA"))

/-- An entry that declares `EdDSA` is pinned to it. -/
theorem alg_pin_ed25519 :
    Pinned (edFacts [edDeclaredAlg]).env (.ofList [edPinned (ascii "EdDSA")])
      (edPinned (ascii "EdDSA")) (.string (ascii "EdDSA")) := by
  have hJ : jwksParse (edFacts [edDeclaredAlg]).env noParseFaults (some edDeclaredAlg.1)
      (some ⟨⟩) = some (.ofList [edPinned (ascii "EdDSA")]) := by
    decide +kernel
  have hd : KeysArray (edFacts [edDeclaredAlg]).env edDeclaredAlg.1 _ :=
    keysArray_labelled (by decide +kernel) (by decide +kernel) (by decide +kernel)
  obtain ⟨m, ho⟩ := origin_labelled hJ hd
  exact ((alg_pin (edFacts [edDeclaredAlg]).keyLaws hJ hd _ (by simp) _ rfl m ho.usable).2 _
    (by simp) ho).mpr ⟨ascii "EdDSA", by decide, rfl⟩

/-- An entry that declares the number 5 as its `kid` verifies a token with the kid `k1`. -/
theorem kid_numeric_fallback :
    jwksParse (edFacts [edNumericKid]).env noParseFaults (some edNumericKid.1) (some ⟨⟩) =
      some (.ofList [edKey []]) ∧
    (edJwk [(ascii "kid", .integer 5)]).objectGet (ascii "kid") = some (.integer 5) ∧
    tokenKid (some edNamedDecoded) = some (ascii "k1") ∧
    jwsVerify (edFacts [edNumericKid]).env (primitive (edFacts [edNumericKid]).env)
      (some edNamedDecoded) (some (.ofList [edKey []])) (some ⟨⟩) = .ok ∧
    ¬ KidDeclared (edFacts [edNumericKid]).env [edJwk [(ascii "kid", .integer 5)]]
      (.ofList [edKey []]) := by
  have hJ : jwksParse (edFacts [edNumericKid]).env noParseFaults (some edNumericKid.1)
      (some ⟨⟩) = some (.ofList [edKey []]) := by
    decide +kernel
  refine ⟨hJ, rfl, by decide, by decide +kernel, ?_⟩
  intro h
  have hd : KeysArray (edFacts [edNumericKid]).env edNumericKid.1 _ :=
    keysArray_labelled (by decide +kernel) (by decide +kernel) (by decide +kernel)
  obtain ⟨m, ho⟩ := origin_labelled hJ hd
  exact absurd (h.kidless (edKey []) (by simp) rfl _ (by simp) m ho) (by decide)

/-- The two documents of the Ed25519 key: the entry without a `kid`, and the PEM under `k1`. -/
theorem kid_declared_ed25519 :
    KidDeclared (edFacts []).env [edJwk []] (.ofList [edKey []]) ∧
    TriesOnly (edFacts []).env (.ofList [edKey (ascii "k1")]) fun _ => False := by
  obtain ⟨hjwks, hkeyval⟩ := kid_declared (edFacts []).env
  refine ⟨?_, (hkeyval noParseFaults edKeyval.1 ⟨⟩ _ (by decide +kernel)).2⟩
  refine (hjwks noParseFaults edJwks.1 ⟨⟩ _ [edJwk []] (by decide +kernel) ?_).mpr ?_
  · exact ⟨by decide +kernel, ⟨edJwks.2, @Facts.parse_eq _ [] _ edJwks rfl rfl
      (by decide +kernel), rfl, rfl⟩, by decide⟩
  · intro e he _ declared hdecl
    obtain rfl := List.mem_singleton.mp he
    have hnone : (edJwk []).objectGet (ascii "kid") = none := rfl
    exact absurd (hnone.symm.trans hdecl) (by simp)

end NxeJwx
