/-
# Selection by thumbprint

`nxe_jwx_jwks_verify_raw` takes the FIRST key with the requested thumbprint, and asks about its
`alg` afterwards.  The keys that share a thumbprint share their material, so for a JWKS the
choice matters through the `alg` only: a key that would accept is hidden exactly when the first
key with its thumbprint is pinned to another algorithm (`thumbprint_selection`), as happens for
a key that is listed twice (`thumbprint_hides_twin`).

The keys of a keyval document have no `alg`.  There the choice can matter for RSA only: an RSA
and an RSASSA-PSS key with the same modulus and exponent have the same thumbprint, and OpenSSL may
set up different signature contexts for them, or none for a key that is restricted to other
parameters.  The request succeeds exactly when some key with the thumbprint accepts in a context
that the first one gets as well (`SharesContext`).
-/
import NxeJwx.Padding
import NxeJwx.Policy

namespace NxeJwx

variable {PKey : Type}

/-! ## 1. What OpenSSL verifies with -/

/-- Two handles with the same public components. -/
inductive SameComponents (O : Ossl PKey) (p p' : PKey) : Prop
  | rsa {n e : Nat} (type : O.baseId p = .rsa ∨ O.baseId p = .rsaPss)
      (type' : O.baseId p' = .rsa ∨ O.baseId p' = .rsaPss) (n_eq : O.rsaN p = some n)
      (n_eq' : O.rsaN p' = some n) (e_eq : O.rsaE p = some e) (e_eq' : O.rsaE p' = some e)
  | ec {group : Bytes} {x y : Nat} (type : O.baseId p = .ec) (type' : O.baseId p' = .ec)
      (group_eq : O.groupName p = some group) (group_eq' : O.groupName p' = some group)
      (x_eq : O.ecX p = some x) (x_eq' : O.ecX p' = some x) (y_eq : O.ecY p = some y)
      (y_eq' : O.ecY p' = some y)
  | raw {octets : Bytes} (type : O.baseId p = .ed25519 ∨ O.baseId p = .ed448)
      (type' : O.baseId p' = O.baseId p) (octets_eq : O.rawPublicKey p = some octets)
      (octets_eq' : O.rawPublicKey p' = some octets)

/-- `EVP_DigestVerify` computes on the public components, under the parameters of the context.
The context is a matter of the key's type, except that an RSASSA-PSS key may carry restrictions
of its own. -/
structure Ossl.VerifyLaws (O : Ossl PKey) : Prop where
  components : ∀ p p', SameComponents O p p' → ∀ md c sig msg,
    O.digestVerify p md c sig msg = O.digestVerify p' md c sig msg
  context : ∀ p p', O.baseId p = O.baseId p' → O.baseId p ≠ .rsaPss → ∀ md pss,
    verifyContext O p md pss = verifyContext O p' md pss

variable {E : Env PKey}

/-- OpenSSL sets a context up for `p0` with the digest and the padding of the algorithm; and where
the padding is left to the key, it is the context that it sets up for `p`. -/
def SharesContext (O : Ossl PKey) (alg : Alg) (p0 p : PKey) : Prop :=
  ∃ c, verifyContext O p0 alg.digest (alg.family == .rsaPss) = some c ∧
    (alg.family ≠ .rsaPss → verifyContext O p alg.digest false = some c)

/-- A PSS context has no parameter left that the setters do not set. -/
theorem verifyContext_pss_unique (hp : E.ossl.PaddingLaws) {p p' : PKey} {md : Option Digest}
    {c c' : SigParams} (h : verifyContext E.ossl p md true = some c)
    (h' : verifyContext E.ossl p' md true = some c') : c = c' := by
  have named : ∀ {p : PKey} {c : SigParams}, verifyContext E.ossl p md true = some c →
      c.padding = .pss ∧ c.mgf1 = md ∧ c.saltlen = .digest := by
    intro p c hc
    unfold verifyContext at hc
    split at hc
    · exact absurd hc (by simp)
    · exact pssParams_named hp hc
  obtain ⟨hpadding, hmgf1, hsaltlen⟩ := named h
  obtain ⟨hpadding', hmgf1', hsaltlen'⟩ := named h'
  cases c
  cases c'
  simp_all only

/-- What one handle verifies, another one with the same components verifies that shares the
context. -/
theorem Authentic.shared (hv : E.ossl.VerifyLaws) (hp : E.ossl.PaddingLaws) {alg : Alg}
    {p0 p : PKey} {secret0 secret msg sig : Bytes} (hcomp : SameComponents E.ossl p0 p)
    (hctx : SharesContext E.ossl alg p0 p) (hf : alg.family ≠ .hmac)
    (h : Authentic E alg (some p) secret msg sig) :
    Authentic E alg (some p0) secret0 msg sig := by
  cases h with
  | mac family => exact absurd family hf
  | @signature q c octets family pkey available form context verified =>
    obtain rfl := Option.some.inj pkey
    obtain ⟨c0, hc0, hshared⟩ := hctx
    have hcc : c0 = c := by
      by_cases hpss : alg.family = .rsaPss
      · rw [hpss] at context hc0
        exact verifyContext_pss_unique hp hc0 context
      · rw [beq_false_of_ne hpss] at context
        exact Option.some.inj ((hshared hpss).symm.trans context)
    refine .signature family rfl available form (hcc ▸ hc0) ?_
    rw [hv.components p0 p hcomp]
    exact verified

/-- The context of a signature that was accepted is there. -/
theorem Authentic.context {alg : Alg} {p : PKey} {secret msg sig : Bytes}
    (h : Authentic E alg (some p) secret msg sig) (hf : alg.family ≠ .hmac) :
    SharesContext E.ossl alg p p := by
  cases h with
  | mac family => exact absurd family hf
  | @signature q c octets family pkey available form context verified =>
    obtain rfl := Option.some.inj pkey
    refine ⟨c, context, ?_⟩
    intro hpss
    rwa [beq_false_of_ne hpss] at context

/-! ## 2. Keys that share a thumbprint -/

/-- The algorithm of the request is one that the key may be used with: the key has no `alg`, or
that one. -/
def PinAllows (E : Env PKey) (k : Key PKey) (algStr : Option Bytes) : Prop :=
  ∀ alg, resolveAlg E k algStr = some alg → k.alg = [] ∨ k.alg = alg.name

/-- A key accepts what another one of its kind accepts exactly when its own `alg` allows it. -/
theorem SameKind.accepts_iff {k k' : Key PKey} (h : SameKind E.ossl k k') {algStr : Option Bytes}
    {msg sig : Bytes} (hacc : verifyRawWithKey E (primitive E) k' algStr msg sig = .ok)
    (hprim : ∀ alg, resolveAlg E k' algStr = some alg → keyCompatible E.ossl k' alg = true →
      primitive E k' alg msg sig = .accepted → primitive E k alg msg sig = .accepted) :
    verifyRawWithKey E (primitive E) k algStr msg sig = .ok ↔ PinAllows E k algStr := by
  obtain ⟨alg, hres, hver⟩ := verifyRawWithKey_ok_iff.mp hacc
  obtain ⟨hcomp, hcrypt⟩ := verifyWithKey_accepted_iff.mp hver
  have hres' : resolveAlg E k algStr = some alg := by
    simpa only [resolveAlg, h.derived] using hres
  constructor
  · intro hok alg' halg'
    obtain ⟨alg'', hres'', hver'⟩ := verifyRawWithKey_ok_iff.mp hok
    obtain rfl := Option.some.inj (halg'.symm.trans hres'')
    exact keyCompatible_pin (verifyWithKey_accepted_iff.mp hver').1 (resolveAlg_mem halg')
  · intro hpin
    have hcomp' := h.compatible (hpin alg hres') (resolveAlg_mem hres) hcomp
    exact verifyRawWithKey_ok_iff.mpr
      ⟨alg, hres', verifyWithKey_accepted_iff.mpr ⟨hcomp', hprim alg hres hcomp hcrypt⟩⟩

/-- What the handle of a key reports, for each material. -/
def Handled (O : Ossl PKey) (k : Key PKey) : Material → Prop
  | .rsa n e => ∃ p, k.pkey = some p ∧ (O.baseId p = .rsa ∨ O.baseId p = .rsaPss) ∧
      O.rsaN p = some n ∧ O.rsaE p = some e
  | .ec c x y => ∃ p, k.pkey = some p ∧ O.baseId p = .ec ∧ O.groupName p = some c.osslName ∧
      O.ecX p = some x ∧ O.ecY p = some y
  | .okp c x => ∃ p, k.pkey = some p ∧ O.baseId p = c.nid ∧ c ∈ okpCurves ∧
      O.rawPublicKey p = some x
  | .oct _ => True

theorem KeyInv.handled {O : Ossl PKey} {k : Key PKey} {m : Material} (h : KeyInv O k)
    (hm : keyMaterial O k = some m) : Handled O k m := by
  cases h with
  | rsa kty pkey type =>
    simp only [keyMaterial, kty, pkey, Option.bind_eq_bind, Option.bind_eq_some_iff,
      Option.some.injEq, exists_eq_left', Option.pure_def] at hm
    obtain ⟨n, hn, e, he, rfl⟩ := hm
    exact ⟨_, pkey, type, hn, he⟩
  | ec kty pkey type row group =>
    simp only [keyMaterial, kty, pkey, row, Option.bind_eq_bind, Option.bind_eq_some_iff,
      Option.some.injEq, exists_eq_left', Option.pure_def] at hm
    obtain ⟨x, hx, y, hy, rfl⟩ := hm
    exact ⟨_, pkey, type, group, hx, hy⟩
  | okp kty pkey row type =>
    simp only [keyMaterial, kty, pkey, row, Option.bind_eq_bind, Option.bind_eq_some_iff,
      Option.some.injEq, exists_eq_left', Option.pure_def] at hm
    obtain ⟨x, hx, rfl⟩ := hm
    exact ⟨_, pkey, type, (lookupOkpCurve_eq_some_iff.mp row).1, hx⟩
  | oct kty =>
    obtain rfl := Option.some.inj ((by simp [keyMaterial, kty] :
      keyMaterial O k = some (.oct k.hmacSecret)).symm.trans hm)
    trivial

/-- Two public keys with one material have handles with the same components. -/
theorem Handled.sameComponents {O : Ossl PKey} {k k' : Key PKey} {m : Material}
    (h : Handled O k m) (h' : Handled O k' m) (hm : m.kty ≠ .oct) :
    ∃ p p', k.pkey = some p ∧ k'.pkey = some p' ∧ SameComponents O p p' := by
  cases m with
  | rsa n e =>
    obtain ⟨p, hp, htype, hn, he⟩ := h
    obtain ⟨p', hp', htype', hn', he'⟩ := h'
    exact ⟨p, p', hp, hp', .rsa htype htype' hn hn' he he'⟩
  | ec c x y =>
    obtain ⟨p, hp, htype, hg, hx, hy⟩ := h
    obtain ⟨p', hp', htype', hg', hx', hy'⟩ := h'
    exact ⟨p, p', hp, hp', .ec htype htype' hg hg' hx hx' hy hy'⟩
  | okp c x =>
    obtain ⟨p, hp, htype, hc, hx⟩ := h
    obtain ⟨p', hp', htype', -, hx'⟩ := h'
    exact ⟨p, p', hp, hp', .raw (htype ▸ okpCurves_nid c hc) (htype'.trans htype.symm) hx hx'⟩
  | oct s => exact absurd rfl hm

/-- Two keys with one material are of one kind. -/
theorem Handled.sameKind {O : Ossl PKey} {k k' : Key PKey} {m : Material}
    (h : Handled O k m) (h' : Handled O k' m) (hk : k.kty = m.kty) (hk' : k'.kty = m.kty) :
    SameKind O k k' where
  kty := hk.trans hk'.symm
  group hec := by
    cases m with
    | ec c x y =>
      obtain ⟨p, hp, -, hg, -⟩ := h
      obtain ⟨p', hp', -, hg', -⟩ := h'
      rw [hp, hp', Option.bind_some, Option.bind_some, hg, hg']
    | rsa | okp | oct => exact absurd (hk.symm.trans hec) (by simp [Material.kty])
  type hokp := by
    cases m with
    | okp c x =>
      obtain ⟨p, hp, ht, -⟩ := h
      obtain ⟨p', hp', ht', -⟩ := h'
      rw [hp, hp', Option.map_some, Option.map_some, ht, ht']
    | rsa | ec | oct => exact absurd (hk.symm.trans hokp) (by simp [Material.kty])

/-- Same components and, but for RSASSA-PSS, same types: so a context that is there is shared,
unless an RSASSA-PSS key is involved. -/
theorem SameComponents.sharesContext {O : Ossl PKey} (hv : O.VerifyLaws) {alg : Alg} {p0 p : PKey}
    (h : SameComponents O p0 p) (hp : SharesContext O alg p p)
    (hpss : O.baseId p0 = .rsaPss ∨ O.baseId p = .rsaPss → SharesContext O alg p0 p) :
    SharesContext O alg p0 p := by
  have same : O.baseId p0 = O.baseId p → O.baseId p0 ≠ .rsaPss → SharesContext O alg p0 p := by
    intro htype hne
    obtain ⟨c, hc, hother⟩ := hp
    exact ⟨c, (hv.context p0 p htype hne _ _).trans hc, hother⟩
  cases h with
  | rsa type type' =>
    rcases type with ht | ht
    · rcases type' with ht' | ht'
      · exact same (ht.trans ht'.symm) (by rw [ht]; decide)
      · exact hpss (.inr ht')
    · exact hpss (.inl ht)
  | ec type type' => exact same (type.trans type'.symm) (by rw [type]; decide)
  | raw type type' =>
    refine same type'.symm ?_
    rcases type with ht | ht <;> rw [ht] <;> decide

/-! ## 3. The first key with a thumbprint -/

/-- Two entries of a JWKS whose keys share a thumbprint describe the same material. -/
theorem JwkOrigin.material_eq (hC : E.b64.Lawful) (hl : E.ossl.KeyLaws)
    (hsha : E.ossl.Sha256Injective) {e0 e : Json} {m0 m : Material} {k0 k : Key PKey}
    (ho0 : JwkOrigin E e0 m0 k0) (ho : JwkOrigin E e m k) (hne : k0.thumbprint ≠ [])
    (heq : k0.thumbprint = k.thumbprint) : m0 = m := by
  obtain ⟨hinv0, hmat0⟩ := ho0.keyInv_and_keyMaterial hl
  obtain ⟨hinv, hmat⟩ := ho.keyInv_and_keyMaterial hl
  obtain ⟨m', hm0', hm'⟩ := material_of_thumbprint hC hl hsha hinv0 hinv ho0.thumbprint
    ho.thumbprint hne heq
  exact (Option.some.inj (hmat0.symm.trans hm0')).trans (Option.some.inj (hm'.symm.trans hmat))

/-- Two entries with the same material give keys that accept the same, their `alg`s apart. -/
theorem JwkOrigin.accepts_iff {e0 e : Json} {m : Material} {k0 k : Key PKey}
    (ho0 : JwkOrigin E e0 m k0) (ho : JwkOrigin E e m k) {algStr : Option Bytes}
    {msg sig : Bytes} (hacc : verifyRawWithKey E (primitive E) k algStr msg sig = .ok) :
    verifyRawWithKey E (primitive E) k0 algStr msg sig = .ok ↔ PinAllows E k0 algStr := by
  have hpkey : k0.pkey = k.pkey := ho0.pkey.trans ho.pkey.symm
  have hsame := sameKind_of_handle (O := E.ossl) (ho0.kty.trans ho.kty.symm) hpkey
  have hprim : primitive E k = primitive E k0 :=
    primitive_congr hpkey.symm (ho.hmacSecret.trans ho0.hmacSecret.symm)
  exact hsame.accepts_iff hacc fun alg _ _ h => hprim ▸ h

/-- No HMAC is compatible with the key of a PEM. -/
theorem PemOrigin.family_ne {member : Bytes × Json} {p : PKey} {k : Key PKey}
    (ho : PemOrigin E member p k) {alg : Alg} (h : keyCompatible E.ossl k alg = true) :
    alg.family ≠ .hmac := by
  intro hf
  have hkty : k.kty = .oct := by rw [keyCompatible_kty h, hf]; rfl
  exact ktyFromPkey_ne_oct E.ossl p (ho.kty.symm.trans hkty)

/-- A key of a PEM that accepts has a context. -/
theorem PemOrigin.sharesContext {member : Bytes × Json} {p : PKey} {k : Key PKey}
    (ho : PemOrigin E member p k) {algStr : Option Bytes} {msg sig : Bytes} {alg : Alg}
    (hres : resolveAlg E k algStr = some alg)
    (hacc : verifyRawWithKey E (primitive E) k algStr msg sig = .ok) :
    SharesContext E.ossl alg p p := by
  obtain ⟨alg', hres', hver⟩ := verifyRawWithKey_ok_iff.mp hacc
  obtain rfl := Option.some.inj (hres.symm.trans hres')
  obtain ⟨hcompat, hprim⟩ := verifyWithKey_accepted_iff.mp hver
  rw [primitive_accepted_iff (resolveAlg_mem hres), ho.handle] at hprim
  exact hprim.context (ho.family_ne hcompat)

/-- Two PEMs whose keys share a thumbprint give keys that accept the same, as long as OpenSSL
sets up the context of the one for the other. -/
theorem PemOrigin.accepts_of (hC : E.b64.Lawful) (hl : E.ossl.KeyLaws)
    (hsha : E.ossl.Sha256Injective) (hv : E.ossl.VerifyLaws) (hp : E.ossl.PaddingLaws)
    {member0 member : Bytes × Json}
    {p0 p : PKey} {k0 k : Key PKey} (ho0 : PemOrigin E member0 p0 k0) (ho : PemOrigin E member p k)
    (hne : k0.thumbprint ≠ []) (heq : k0.thumbprint = k.thumbprint)
    {algStr : Option Bytes} {msg sig : Bytes}
    (hpss : ∀ alg, resolveAlg E k algStr = some alg →
      E.ossl.baseId p0 = .rsaPss ∨ E.ossl.baseId p = .rsaPss → SharesContext E.ossl alg p0 p)
    (hacc : verifyRawWithKey E (primitive E) k algStr msg sig = .ok) :
    verifyRawWithKey E (primitive E) k0 algStr msg sig = .ok := by
  obtain ⟨m, hm0, hm⟩ := material_of_thumbprint hC hl hsha ho0.keyInv ho.keyInv ho0.thumbprint
    ho.thumbprint hne heq
  have hoct : m.kty ≠ .oct := by
    rw [← kty_of_keyMaterial hm, ho.kty]
    exact ktyFromPkey_ne_oct E.ossl p
  have hh0 := ho0.keyInv.handled hm0
  have hh := ho.keyInv.handled hm
  obtain ⟨q0, q, hq0, hq, hcomp⟩ := hh0.sameComponents hh hoct
  obtain rfl := Option.some.inj (ho0.handle.symm.trans hq0)
  obtain rfl := Option.some.inj (ho.handle.symm.trans hq)
  have hsame : SameKind E.ossl k0 k :=
    hh0.sameKind hh (kty_of_keyMaterial hm0) (kty_of_keyMaterial hm)
  refine (hsame.accepts_iff hacc ?_).mpr fun alg _ => .inl ho0.alg
  intro alg hres hcompat hprim
  have ha := resolveAlg_mem hres
  have hfam := ho.family_ne hcompat
  have hctx := hcomp.sharesContext hv (ho.sharesContext hres hacc) (hpss alg hres)
  rw [primitive_accepted_iff ha, hq] at hprim
  rw [primitive_accepted_iff ha, hq0]
  exact hprim.shared hv hp hcomp hctx hfam

/-- The key has the thumbprint and accepts the signature. -/
def AcceptsUnder (E : Env PKey) (J : Jwks PKey) (keyid : Bytes) (algStr : Option Bytes)
    (msg sig : Bytes) (k : Key PKey) : Prop :=
  k ∈ J.walk ∧ k.thumbprint = keyid ∧ verifyRawWithKey E (primitive E) k algStr msg sig = .ok

/-- Where some key of a JWKS with the thumbprint accepts, the request succeeds exactly when the
first key with the thumbprint is not pinned to another algorithm.  Where some key of a keyval
document with the thumbprint accepts, it succeeds exactly when one of these shares its signature
context with the first key, which is in question for RSASSA-PSS keys only. -/
theorem thumbprint_selection (hC : E.b64.Lawful) (hl : E.ossl.KeyLaws)
    (hsha : E.ossl.Sha256Injective) (hv : E.ossl.VerifyLaws) (hp : E.ossl.PaddingLaws) :
    (∀ F doc pool J, jwksParse E F (some doc) (some pool) = some J →
      ∀ keyid algStr msg sig pool', sig ≠ [] → (∃ k, AcceptsUnder E J keyid algStr msg sig k) →
        (jwksVerifyRaw E (primitive E) (some J) (some keyid) algStr (some msg) (some sig)
            (some pool') = .ok ↔
          ∃ k0, findByThumbprint (some J) (some keyid) = some k0 ∧ PinAllows E k0 algStr)) ∧
    (∀ F doc pool J, keyvalParse E F (some doc) (some pool) = some J →
      ∀ keyid algStr msg sig pool', sig ≠ [] → (∃ k, AcceptsUnder E J keyid algStr msg sig k) →
        (jwksVerifyRaw E (primitive E) (some J) (some keyid) algStr (some msg) (some sig)
            (some pool') = .ok ↔
          ∃ k0, findByThumbprint (some J) (some keyid) = some k0 ∧
            ∃ k, AcceptsUnder E J keyid algStr msg sig k ∧
              ∀ alg p0 p, resolveAlg E k algStr = some alg → k0.pkey = some p0 →
                k.pkey = some p → E.ossl.baseId p0 = .rsaPss ∨ E.ossl.baseId p = .rsaPss →
                  SharesContext E.ossl alg p0 p)) := by
  constructor
  · intro F doc pool J hJ keyid algStr msg sig pool' hsig hsome
    obtain ⟨k, hk, htp, hacc⟩ := hsome
    have first : ∀ k0, findByThumbprint (some J) (some keyid) = some k0 →
        (verifyRawWithKey E (primitive E) k0 algStr msg sig = .ok ↔ PinAllows E k0 algStr) := by
      intro k0 hk0
      obtain ⟨hmem0, htp0, hne⟩ := findByThumbprint_some hk0
      obtain ⟨_, e0, m0, -, -, ho0⟩ := mem_of_jwksParse hJ hmem0
      obtain ⟨_, e, m, -, -, ho⟩ := mem_of_jwksParse hJ hk
      obtain rfl := ho0.material_eq hC hl hsha ho (htp0 ▸ hne) (htp0.trans htp.symm)
      exact ho0.accepts_iff ho hacc
    rw [jwksVerifyRaw_ok_iff]
    constructor
    · rintro ⟨-, k0, hk0, hok⟩
      exact ⟨k0, hk0, (first k0 hk0).mp hok⟩
    · rintro ⟨k0, hk0, hpin⟩
      exact ⟨hsig, k0, hk0, (first k0 hk0).mpr hpin⟩
  · intro F doc pool J hJ keyid algStr msg sig pool' hsig _
    rw [jwksVerifyRaw_ok_iff]
    constructor
    · -- the first key is one that accepts, in its own context
      rintro ⟨-, k0, hk0, hok⟩
      obtain ⟨hmem0, htp0, -⟩ := findByThumbprint_some hk0
      obtain ⟨_, _, p', -, -, ho0⟩ := mem_of_keyvalParse hJ hmem0
      refine ⟨k0, hk0, k0, ⟨hmem0, htp0, hok⟩, ?_⟩
      intro alg p0 p hres hp0 hp _
      obtain rfl := Option.some.inj (ho0.handle.symm.trans hp0)
      obtain rfl := Option.some.inj (ho0.handle.symm.trans hp)
      exact ho0.sharesContext hres hok
    · rintro ⟨k0, hk0, k, ⟨hk, htp, hacc⟩, hpss⟩
      obtain ⟨hmem0, htp0, hne⟩ := findByThumbprint_some hk0
      obtain ⟨_, _, p0, -, -, ho0⟩ := mem_of_keyvalParse hJ hmem0
      obtain ⟨_, _, p, -, -, ho⟩ := mem_of_keyvalParse hJ hk
      exact ⟨hsig, k0, hk0, ho0.accepts_of hC hl hsha hv hp ho (htp0 ▸ hne)
        (htp0.trans htp.symm) (fun alg hres => hpss alg p0 p hres ho0.handle ho.handle) hacc⟩

/-! ## 4. A key that is listed twice -/

/-- The tables verify on components, under contexts that go by the type. -/
theorem Facts.verifyLaws (T : Facts) : T.ossl.VerifyLaws where
  components p p' h md c sig msg := by
    have hcomp : p.components = p'.components := by
      cases h with
      | rsa _ _ n_eq n_eq' e_eq e_eq' =>
        exact (Handle.components_rsa n_eq e_eq).trans (Handle.components_rsa n_eq' e_eq').symm
      | ec _ _ group_eq group_eq' x_eq x_eq' y_eq y_eq' =>
        exact (Handle.components_ec group_eq x_eq y_eq).trans
          (Handle.components_ec group_eq' x_eq' y_eq').symm
      | raw _ type' octets_eq octets_eq' =>
        have htype : p'.baseId = p.baseId := type'
        rw [Handle.components_raw octets_eq, Handle.components_raw octets_eq', htype]
    simp only [Facts.ossl, hcomp]
  context p p' h _ md pss := by
    have hfresh : p.fresh = p'.fresh := by
      simp only [Handle.fresh, show p.baseId = p'.baseId from h]
    simp only [verifyContext, pssParams, Facts.ossl, hfresh]

/-- The entry of the Ed25519 key, pinned to `alg`, as text. -/
def edPinnedText (alg : Bytes) : Bytes :=
  ascii "\x7b\"kty\":\"OKP\",\"crv\":\"Ed25519\",\"x\":\"" ++ edX64 ++
    ascii "\",\"alg\":\"" ++ alg ++ ascii "\"\x7d"

/-- A JWKS that lists the Ed25519 key twice: under the algorithm name of its curve, and under
the name that tokens use. -/
def edTwins : Bytes × Json :=
  ( ascii "\x7b\"keys\":[" ++ edPinnedText (ascii "Ed25519") ++ ascii "," ++
      edPinnedText (ascii "EdDSA") ++ ascii "]\x7d",
    .object [(ascii "keys", .array [ edJwk [(ascii "alg", .string (ascii "Ed25519"))],
      edJwk [(ascii "alg", .string (ascii "EdDSA"))] ])] )

/-- The Ed25519 key, pinned to `alg`. -/
def edPinned (alg : Bytes) : Key Handle := { (edKey [] : Key Handle) with alg := alg }

/-- The keyset of the twins. -/
def edTwinKeys : Jwks Handle := .ofList [edPinned (ascii "Ed25519"), edPinned (ascii "EdDSA")]

/-- A request for the thumbprint of the Ed25519 key. -/
def edRequest (documents : List (Bytes × Json)) (J : Jwks Handle) (alg : Option Bytes) : Rc :=
  jwksVerifyRaw (edFacts documents).env (primitive (edFacts documents).env) (some J)
    (some (edKey []).thumbprint) alg (some edSigningInput) (some edSignature) (some ⟨⟩)

theorem edTwins_parsed : jwksParse (edFacts [edTwins]).env noParseFaults (some edTwins.1)
    (some ⟨⟩) = some edTwinKeys := by
  decide +kernel

theorem edTwins_accepts : AcceptsUnder (edFacts [edTwins]).env edTwinKeys (edKey []).thumbprint
    (some (ascii "EdDSA")) edSigningInput edSignature (edPinned (ascii "EdDSA")) :=
  ⟨by decide, by decide, by decide +kernel⟩

/-- The second twin accepts, the first one is asked, and the request is declined. -/
theorem thumbprint_hides_twin :
    jwksParse (edFacts [edTwins]).env noParseFaults (some edTwins.1) (some ⟨⟩) =
      some edTwinKeys ∧
    AcceptsUnder (edFacts [edTwins]).env edTwinKeys (edKey []).thumbprint (some (ascii "EdDSA"))
      edSigningInput edSignature (edPinned (ascii "EdDSA")) ∧
    edRequest [edTwins] edTwinKeys (some (ascii "EdDSA")) = .declined :=
  ⟨edTwins_parsed, edTwins_accepts, by decide +kernel⟩

/-- The PEM of the plain RSA key with the modulus of the RSASSA-PSS key. -/
def plainPemWith (eol : Bytes) : Bytes :=
  ascii "-----BEGIN PUBLIC KEY-----" ++ eol ++
  ascii "MIIBIjANBgkqhkiG9w0BAQEFAAOCAQ8AMIIBCgKCAQEAwj1izjiB4xGko+/HV3uD" ++ eol ++
  ascii "mkCirOLzVtzVNq7kbK5SloxU9B0WON5T18X+Po67+H6MDClgfJw3gtpKA46vrX+9" ++ eol ++
  ascii "C8K7KH3wD3p9x92ruYckPosW9ON6DmOXt5GnNJy2vhbKYMpdXc760gSdOeClYQuA" ++ eol ++
  ascii "fq0WFqTfsVj9nSpLNLHJOWUv/VOU7Sh18XDmVBnXOmgcTqjW8tolcPUrfyGeAvpq" ++ eol ++
  ascii "1PJJcFPt17T/45OpQ4ac+ObMie5jbHCU8KzXpyZDHDVuTRcIiXt2KOoePmDNfVDJ" ++ eol ++
  ascii "Bi3K6M5Q9oIrdseF4DokI3Jlb77HLtLyU1tr8lKkKw74P9lxG2gjPbh7+SybxkRj" ++ eol ++
  ascii "KwIDAQAB" ++ eol ++
  ascii "-----END PUBLIC KEY-----" ++ eol

/-- A keyval document with one modulus under both types. -/
def bothTypes : Bytes × Json :=
  ( ascii "\x7b\"k0\":\"" ++ plainPemWith (ascii "\\n") ++ ascii "\",\"k1\":\"" ++
      pssPemWith (ascii "\\n") ++ ascii "\"\x7d",
    .object [ (ascii "k0", .string (plainPemWith (ascii "\n"))),
      (ascii "k1", .string (pssPemWith (ascii "\n"))) ] )

/-- The facts about the two keys. -/
def bothFacts : Facts where
  documents := [bothTypes]
  pubkeys :=
    [ (plainPemWith (ascii "\n"), .rsa (spelled pssN64) 65537),
      (pssPemWith (ascii "\n"), .rsaPss (spelled pssN64) 65537) ]
  signatures := [(.rsa (spelled pssN64) 65537, some .sha256, pssSigned.1, pssSigned.2)]
  hashes :=
    [(rsaText pssN64, (stubDecode (ascii "0sxCi7vnjPzvq1EG6GsSYY47YsI3RT-Ct9pX7vqC4hw")).getD [])]

/-- The plain key of the document, which comes first. -/
def plainKey : Key Handle :=
  { pssKey with kid := ascii "k0", pkey := some (.rsa (spelled pssN64) 65537) }

/-- The keyset of both types. -/
def bothKeys : Jwks Handle := .ofList [plainKey, pssKey]

theorem bothTypes_accepts : AcceptsUnder bothFacts.env bothKeys pssKey.thumbprint
    (some (ascii "PS256")) pssSigned.1 pssSigned.2 pssKey :=
  ⟨by simp [bothKeys], rfl, by decide +kernel⟩

/-- PS256 in the table. -/
def ps256 : RsaScheme := ⟨ascii "PS256", .pss, .sha256⟩

/-- The request succeeds on the document with the key alone and on the keyval document; on the
twins it is hidden by the first one.  For PS256 the plain key gets the context of the RSASSA-PSS
key that accepts. -/
theorem thumbprint_selection_ed25519_ps256 :
    edRequest [edTwins] (.ofList [edKey []]) (some (ascii "EdDSA")) = .ok ∧
    edRequest [edTwins] (.ofList [edKey (ascii "k1")]) (some (ascii "EdDSA")) = .ok ∧
    edRequest [edTwins] edTwinKeys (some (ascii "EdDSA")) ≠ .ok ∧
    jwksVerifyRaw bothFacts.env (primitive bothFacts.env) (some bothKeys)
      (some pssKey.thumbprint) (some (ascii "PS256")) (some pssSigned.1) (some pssSigned.2)
      (some ⟨⟩) = .ok := by
  obtain ⟨hjwks, hkeyval⟩ := thumbprint_selection (E := (edFacts [edTwins]).env)
    stubCodec_lawful (edFacts [edTwins]).keyLaws (edFacts_sha256 [edTwins])
    (edFacts [edTwins]).verifyLaws (edFacts [edTwins]).paddingLaws
  refine ⟨?_, ?_, ?_, ?_⟩
  · refine (hjwks noParseFaults edJwks.1 ⟨⟩ _ (by decide +kernel) _ _ _ _ _ (by decide)
      ⟨edKey [], by decide, rfl, by decide +kernel⟩).mpr ⟨edKey [], rfl, ?_⟩
    intro alg _
    exact .inl rfl
  · have hacc : AcceptsUnder (edFacts [edTwins]).env (.ofList [edKey (ascii "k1")])
        (edKey []).thumbprint (some (ascii "EdDSA")) edSigningInput edSignature
        (edKey (ascii "k1")) := ⟨by decide, rfl, by decide +kernel⟩
    refine (hkeyval noParseFaults edKeyval.1 ⟨⟩ _ (by decide +kernel) _ _ _ _ _ (by decide)
      ⟨_, hacc⟩).mpr ⟨edKey (ascii "k1"), rfl, _, hacc, ?_⟩
    intro alg p0 p _ hp0 hp htype
    obtain rfl := Option.some.inj hp0
    obtain rfl := Option.some.inj hp
    exact absurd htype (by decide)
  · intro hok
    obtain ⟨k0, hk0, hpin⟩ := (hjwks noParseFaults edTwins.1 ⟨⟩ edTwinKeys edTwins_parsed
      _ _ _ _ _ (by decide) ⟨_, edTwins_accepts⟩).mp hok
    obtain rfl : edPinned (ascii "Ed25519") = k0 := Option.some.inj ((by decide +kernel :
      findByThumbprint (some edTwinKeys) (some (edKey []).thumbprint) = _).symm.trans hk0)
    obtain ⟨alg, halg, hname⟩ : ∃ alg, resolveAlg (edFacts [edTwins]).env
        (edPinned (ascii "Ed25519")) (some (ascii "EdDSA")) = some alg ∧
          alg.name = ascii "EdDSA" := ⟨_, rfl, by decide⟩
    have := hpin alg halg
    rw [hname] at this
    exact absurd this (by decide)
  · obtain ⟨-, hboth⟩ := thumbprint_selection (E := bothFacts.env) stubCodec_lawful
      bothFacts.keyLaws (bothFacts.sha256_of_one rfl) bothFacts.verifyLaws bothFacts.paddingLaws
    refine (hboth noParseFaults bothTypes.1 ⟨⟩ bothKeys (by decide +kernel) _ _ _ _ _
      (by decide +kernel) ⟨_, bothTypes_accepts⟩).mpr ⟨plainKey, by decide +kernel, pssKey,
        bothTypes_accepts, ?_⟩
    intro alg p0 p hres hp0 hp _
    obtain rfl := Option.some.inj hp0
    obtain rfl := Option.some.inj hp
    have hrow : resolveAlg bothFacts.env pssKey (some (ascii "PS256")) = some ps256.row := by
      decide
    obtain rfl := Option.some.inj (hrow.symm.trans hres)
    exact ⟨_, rfl, fun hne => absurd rfl hne⟩

end NxeJwx
