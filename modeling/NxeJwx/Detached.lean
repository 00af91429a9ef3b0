/-
# Detached verification against the token path

Three functions verify a signature with a key: the two passes of `nxe_jwx_jws_verify`, the
loop of `nxe_jwx_jwks_verify_raw_by_kid`, and the tail that the two raw verifications share.
They check in different orders and resolve the algorithm in different ways.

Section 1 compares the loops.  For a token that names its algorithm and its kid, the raw loop
on the token's own parts returns what the token path does, as long as some key carries the kid;
and when none does, the token path looks at the kid-less keys alone.

Section 2 compares the two ways to the algorithm.  Leaving `alg` out amounts to naming the one
algorithm that the key admits, because no two rows of the table share a curve and only one is
for Edwards keys.
-/
import NxeJwx.Soundness

namespace NxeJwx

variable {PKey : Type}

/-- The keys of `J` that pass a test, in their order, as a keyset. -/
def Jwks.restrict (J : Jwks PKey) (p : Key PKey → Bool) : Jwks PKey := ofList (J.walk.filter p)

@[simp] theorem Jwks.mem_walk_restrict {J : Jwks PKey} {p : Key PKey → Bool} {k : Key PKey} :
    k ∈ (J.restrict p).walk ↔ k ∈ J.walk ∧ p k = true := by
  simp [restrict, List.mem_filter]

variable {E : Env PKey} {crypto : Crypto PKey}

/-! ## 1. The raw loop mirrors pass 1 -/

/-- A raw verification with the algorithm named: the row of that name, and a compatible key
that accepts. -/
theorem verifyRawWithKey_named_iff {k : Key PKey} {s msg sig : Bytes} (hs : s ≠ []) :
    verifyRawWithKey E crypto k (some s) msg sig = .ok ↔
      ∃ alg ∈ algs E.haveHmac, alg.name = s ∧ keyCompatible E.ossl k alg = true ∧
        crypto k alg msg sig = .accepted := by
  have hr : resolveAlg E k (some s) = lookupAlg E.haveHmac s := by
    simp only [resolveAlg, if_pos (List.length_pos_iff.mpr hs)]
  simp only [verifyRawWithKey_ok_iff, hr, lookupAlg_eq_some_iff, verifyWithKey_accepted_iff,
    and_assoc]

/-- The policy for a token whose kid some key carries, as the raw loop puts it. -/
theorem policyAccepts_labelled_iff {t : Token} {J : Jwks PKey} (halg : t.alg ≠ [])
    (hkid : t.kid ≠ []) (hl : ∃ k ∈ J.walk, k.kid = t.kid) :
    PolicyAccepts E crypto t J ↔ t.signature ≠ [] ∧ ∃ k ∈ J.walk, k.kid = t.kid ∧
      verifyRawWithKey E crypto k (some t.alg) t.signingInput t.signature = .ok := by
  have hview : tokenKid (some t) = some t.kid := tokenKid_eq_some_iff.mpr ⟨rfl, hkid⟩
  simp only [PolicyAccepts, hview, eligible_of_labelled hl, verifyRawWithKey_named_iff halg]
  constructor
  · rintro ⟨alg, ha, hn, -, hsig, k, hk, hid, hc, hacc⟩
    exact ⟨hsig, k, hk, hid, alg, ha, hn, hc, hacc⟩
  · rintro ⟨hsig, k, hk, hid, alg, ha, hn, hc, hacc⟩
    exact ⟨alg, ha, hn, halg, hsig, k, hk, hid, hc, hacc⟩

/-- The policy for a token whose kid no key carries looks at the kid-less keys only. -/
theorem policyAccepts_unlabelled_iff {t : Token} {J : Jwks PKey} (hkid : t.kid ≠ [])
    (hl : ∀ k ∈ J.walk, k.kid ≠ t.kid) :
    PolicyAccepts E crypto t J ↔ PolicyAccepts E crypto t (J.restrict fun k => k.kid == []) := by
  have hview : tokenKid (some t) = some t.kid := tokenKid_eq_some_iff.mpr ⟨rfl, hkid⟩
  have hl' : ∀ k ∈ (J.restrict fun k => k.kid == []).walk, k.kid ≠ t.kid :=
    fun k hk => hl k (Jwks.mem_walk_restrict.mp hk).1
  simp only [PolicyAccepts, hview, eligible_of_unlabelled hl, eligible_of_unlabelled hl',
    Jwks.mem_walk_restrict, beq_iff_eq, and_assoc, and_self_left]

/-- **The raw loop mirrors the kid-strict pass.**  For a token that names its algorithm and its
kid, both as any non-empty string: when some key of the keyset carries the kid, verifying the
token is verifying its signature by kid; when none does, verifying by kid declines and the token
is verified against the kid-less keys. -/
theorem detached_mirrors (E : Env PKey) (crypto : Crypto PKey) {t : Token} {alg kid : Bytes}
    (halg : tokenAlg (some t) = some alg) (hkid : tokenKid (some t) = some kid)
    (J : Jwks PKey) :
    (hasKid (some J) (some kid) = true → ∀ pool : Option Pool,
      jwsVerify E crypto (some t) (some J) pool =
        jwksVerifyRawByKid E crypto (some J) (some kid) (some alg) (some t.signingInput)
          (some t.signature) pool) ∧
    (hasKid (some J) (some kid) = false →
      (∀ pool : Pool, jwksVerifyRawByKid E crypto (some J) (some kid) (some alg)
        (some t.signingInput) (some t.signature) (some pool) = .declined) ∧
      ∀ pool : Option Pool, jwsVerify E crypto (some t) (some J) pool =
        jwsVerify E crypto (some t) (some (J.restrict fun k => k.kid == [])) pool) := by
  obtain ⟨rfl, ha⟩ := tokenAlg_eq_some_iff.mp halg
  obtain ⟨rfl, hk⟩ := tokenKid_eq_some_iff.mp hkid
  have hne : ∀ (J : Jwks PKey) (pool : Pool),
      jwsVerify E crypto (some t) (some J) (some pool) ≠ .error := by
    intro J pool h
    rcases jwsVerify_error_iff.mp h with h | h | h <;> exact absurd h (by simp)
  constructor
  · intro hhas pool
    obtain ⟨-, hl⟩ := hasKid_iff.mp hhas
    cases pool with
    | none => rfl
    | some pool =>
      refine Rc.eq_of_ok_iff (hne J pool) jwksVerifyRawByKid_ne_error ?_
      rw [jwsVerify_ok_iff, jwksVerifyRawByKid_ok_iff, policyAccepts_labelled_iff ha hk hl]
      simp only [hk, ne_eq, not_false_eq_true, true_and]
  · intro hhas
    have hl : ∀ k ∈ J.walk, k.kid ≠ t.kid := by
      intro k hkJ hid
      exact absurd (hasKid_iff.mpr ⟨hk, k, hkJ, hid⟩) (by simp [hhas])
    constructor
    · intro pool
      cases hr : jwksVerifyRawByKid E crypto (some J) (some t.kid) (some t.alg)
          (some t.signingInput) (some t.signature) (some pool) with
      | declined => rfl
      | error => exact absurd hr jwksVerifyRawByKid_ne_error
      | ok =>
        obtain ⟨-, -, k, hkJ, hid, -⟩ := jwksVerifyRawByKid_ok_iff.mp hr
        exact absurd hid (hl k hkJ)
    · intro pool
      cases pool with
      | none => rfl
      | some pool =>
        refine Rc.eq_of_ok_iff (hne J pool) (hne _ pool) ?_
        rw [jwsVerify_ok_iff, jwsVerify_ok_iff, policyAccepts_unlabelled_iff hk hl]

/-- The named Ed25519 token, with the key of its kid. -/
theorem detached_mirrors_ed25519 :
    jwsVerify (edFacts []).env (primitive (edFacts []).env) (some edNamedDecoded)
        (some (.ofList [edKey (ascii "k1")])) (some ⟨⟩) =
      jwksVerifyRawByKid (edFacts []).env (primitive (edFacts []).env)
        (some (.ofList [edKey (ascii "k1")])) (some (ascii "k1")) (some (ascii "EdDSA"))
        (some edNamedSigningInput) (some edNamedSignature) (some ⟨⟩) ∧
    jwsVerify (edFacts []).env (primitive (edFacts []).env) (some edNamedDecoded)
        (some (.ofList [edKey (ascii "k1")])) (some ⟨⟩) = .ok :=
  ⟨(detached_mirrors (edFacts []).env (primitive (edFacts []).env) (t := edNamedDecoded)
      (by decide) (by decide) (.ofList [edKey (ascii "k1")])).1 (by decide) (some ⟨⟩), by decide⟩

/-! ## 2. The algorithm a key admits -/

/-- `alg` is left out: `NULL` or empty. -/
def Omitted (algStr : Option Bytes) : Prop := algStr = none ∨ algStr = some []

theorem resolveAlg_omitted {k : Key PKey} {algStr : Option Bytes} (h : Omitted algStr) :
    resolveAlg E k algStr = algFromKey E k := by
  rcases h with rfl | rfl
  · rfl
  · rfl

/-- A handle is on one curve. -/
theorem ecCurveMatches_unique {O : Ossl PKey} {pkey : Option PKey} {a b : Bytes}
    (ha : ecCurveMatches O pkey a = true) (hb : ecCurveMatches O pkey b = true) : a = b := by
  unfold ecCurveMatches at ha hb
  cases hg : pkey.bind O.groupName with
  | none => exact absurd ha (by simp [hg])
  | some name =>
    rw [hg] at ha hb
    exact (beq_iff_eq.mp ha).symm.trans (beq_iff_eq.mp hb)

/-- At most one row of the table is for the curve of a handle. -/
theorem algs_matching_unique {O : Ossl PKey} {pkey : Option PKey} {haveHmac : Bool} :
    ∀ a ∈ algs haveHmac, ∀ a' ∈ algs haveHmac,
      (a.family == .ecdsa && a.ecCurve.any (ecCurveMatches O pkey)) = true →
      (a'.family == .ecdsa && a'.ecCurve.any (ecCurveMatches O pkey)) = true → a = a' := by
  intro a ha a' ha' h h'
  rw [Bool.and_eq_true, Option.any_eq_true] at h h'
  obtain ⟨-, c, hc, hm⟩ := h
  obtain ⟨-, c', hc', hm'⟩ := h'
  obtain rfl := ecCurveMatches_unique hm hm'
  exact algs_curve_inj a ha a' ha' (hc.trans hc'.symm) (by rw [hc]; rfl)

/-- The derived algorithm is the row that an EC or OKP key is compatible with, its own `alg`
apart. -/
theorem algFromKey_of_compatible {k : Key PKey} {a : Alg} (hk : k.kty = .ec ∨ k.kty = .okp)
    (ha : a ∈ algs E.haveHmac) (hc : keyCompatible E.ossl k a = true) :
    algFromKey E k = some a := by
  have hkty := keyCompatible_kty hc
  unfold algFromKey
  rcases hk with hk | hk
  · have hf : a.family = .ecdsa := by
      rw [hk] at hkty
      cases hf : a.family <;> simp [hf, AlgFamily.kty] at hkty ⊢
    obtain ⟨name, hname⟩ := Option.isSome_iff_exists.mp ((algs_ecCurve a ha).mpr hf)
    obtain ⟨p, hp, hg⟩ := keyCompatible_curve hc ha hname
    simp only [hk]
    refine (find_iff_of_unique algs_matching_unique).mpr ⟨ha, ?_⟩
    simp [hf, hname, ecCurveMatches, hp, hg]
  · have hf : a.family = .eddsa := by
      rw [hk] at hkty
      cases hf : a.family <;> simp [hf, AlgFamily.kty] at hkty ⊢
    simp only [hk]
    refine (find_iff_of_unique fun b hb b' hb' h h' => ?_).mpr ⟨ha, beq_iff_eq.mpr hf⟩
    exact algs_eddsa_unique b hb b' hb' (beq_iff_eq.mp h) (beq_iff_eq.mp h')

/-- Only EC and OKP keys derive an algorithm. -/
theorem kty_of_algFromKey {k : Key PKey} {a : Alg} (h : algFromKey E k = some a) :
    k.kty = .ec ∨ k.kty = .okp := by
  unfold algFromKey at h
  split at h
  · next hk => exact .inr hk
  · next hk => exact .inl hk
  · exact absurd h (by simp)

/-- Naming the algorithm `a`, the key accepts. -/
def AcceptsAs (E : Env PKey) (crypto : Crypto PKey) (k : Key PKey) (msg sig a : Bytes) : Prop :=
  a ≠ [] ∧ verifyRawWithKey E crypto k (some a) msg sig = .ok

variable {k : Key PKey} {msg sig : Bytes}

/-- The name that an EC or OKP key accepts under is that of its derived algorithm. -/
theorem acceptsAs_iff {a : Bytes} (hk : k.kty = .ec ∨ k.kty = .okp) :
    AcceptsAs E crypto k msg sig a ↔ ∃ alg, algFromKey E k = some alg ∧ alg.name = a ∧
      verifyWithKey E crypto k alg msg sig = .accepted := by
  constructor
  · rintro ⟨hne, h⟩
    obtain ⟨alg, ha, hn, hc, hacc⟩ := (verifyRawWithKey_named_iff hne).mp h
    exact ⟨alg, algFromKey_of_compatible hk ha hc, hn, verifyWithKey_accepted_iff.mpr ⟨hc, hacc⟩⟩
  · rintro ⟨alg, hd, rfl, h⟩
    have ha := algFromKey_mem hd
    have hne := (algs_name_ne _ alg ha).1
    obtain ⟨hc, hacc⟩ := verifyWithKey_accepted_iff.mp h
    exact ⟨hne, (verifyRawWithKey_named_iff hne).mpr ⟨alg, ha, rfl, hc, hacc⟩⟩

/-- Leaving the algorithm out is naming one that an EC or OKP key accepts under. -/
theorem verifyRawWithKey_omitted_iff {algStr : Option Bytes} (h : Omitted algStr) :
    verifyRawWithKey E crypto k algStr msg sig = .ok ↔
      (k.kty = .ec ∨ k.kty = .okp) ∧ ∃ a, AcceptsAs E crypto k msg sig a := by
  rw [verifyRawWithKey_ok_iff, resolveAlg_omitted h]
  constructor
  · rintro ⟨alg, hd, hv⟩
    have hk := kty_of_algFromKey hd
    exact ⟨hk, alg.name, (acceptsAs_iff hk).mpr ⟨alg, hd, rfl, hv⟩⟩
  · rintro ⟨hk, a, ha⟩
    obtain ⟨alg, hd, -, hv⟩ := (acceptsAs_iff hk).mp ha
    exact ⟨alg, hd, hv⟩

/-- An EC or OKP key accepts under one name. -/
theorem acceptsAs_unique {a b : Bytes} (hk : k.kty = .ec ∨ k.kty = .okp)
    (ha : AcceptsAs E crypto k msg sig a) (hb : AcceptsAs E crypto k msg sig b) : a = b := by
  obtain ⟨alg, hd, hn, -⟩ := (acceptsAs_iff hk).mp ha
  obtain ⟨alg', hd', hn', -⟩ := (acceptsAs_iff hk).mp hb
  obtain rfl := Option.some.inj (hd.symm.trans hd')
  exact hn.symm.trans hn'

/-- The EC and OKP keys of a keyset. -/
def isEcOrOkp (k : Key PKey) : Bool := k.kty == .ec || k.kty == .okp

theorem isEcOrOkp_iff : isEcOrOkp k = true ↔ k.kty = .ec ∨ k.kty = .okp := by
  simp [isEcOrOkp]

/-- A key that declares an `alg` accepts under that name, whatever the request said. -/
theorem verifyRawWithKey_pin {algStr : Option Bytes} (hpin : k.alg ≠ [])
    (h : verifyRawWithKey E crypto k algStr msg sig = .ok) :
    AcceptsAs E crypto k msg sig k.alg ∧ ∀ a, algStr = some a → a ≠ [] → a = k.alg := by
  obtain ⟨alg, hr, hv⟩ := verifyRawWithKey_ok_iff.mp h
  have ha := resolveAlg_mem hr
  obtain ⟨hc, hacc⟩ := verifyWithKey_accepted_iff.mp hv
  have hname : k.alg = alg.name := (keyCompatible_pin hc ha).resolve_left hpin
  refine ⟨⟨hpin, (verifyRawWithKey_named_iff hpin).mpr ⟨alg, ha, hname.symm, hc, hacc⟩⟩, ?_⟩
  rintro a rfl hne
  simp only [resolveAlg, if_pos (List.length_pos_iff.mpr hne)] at hr
  exact (lookupAlg_eq_some_iff.mp hr).2.symm.trans hname.symm

/-- **Omitting `alg` is naming the one algorithm the key admits.**  For a key, for a keyset by
kid and for a keyset by thumbprint; and with `alg` given or not, a key that declares an `alg`
accepts under that one only. -/
theorem omitted_alg (E : Env PKey) (crypto : Crypto PKey) {omitted : Option Bytes}
    (hom : Omitted omitted) (msg sig : Bytes) :
    (∀ k : Key PKey,
      (verifyRawWithKey E crypto k omitted msg sig = .ok ↔
        (k.kty = .ec ∨ k.kty = .okp) ∧ ∃ a, AcceptsAs E crypto k msg sig a) ∧
      (k.kty = .ec ∨ k.kty = .okp → ∀ a b, AcceptsAs E crypto k msg sig a →
        AcceptsAs E crypto k msg sig b → a = b) ∧
      (k.kty = .rsa ∨ k.kty = .oct → verifyRawWithKey E crypto k omitted msg sig = .declined)) ∧
    (∀ (J : Jwks PKey) (kid : Bytes) (pool : Pool),
      jwksVerifyRawByKid E crypto (some J) (some kid) omitted (some msg) (some sig) (some pool)
          = .ok ↔
        ∃ a ≠ [], jwksVerifyRawByKid E crypto (some (J.restrict isEcOrOkp)) (some kid) (some a)
          (some msg) (some sig) (some pool) = .ok) ∧
    (∀ (J : Jwks PKey) (keyid : Bytes) (pool : Pool),
      jwksVerifyRaw E crypto (some J) (some keyid) omitted (some msg) (some sig) (some pool)
          = .ok ↔
        ∃ k, findByThumbprint (some J) (some keyid) = some k ∧ isEcOrOkp k = true ∧
          ∃ a ≠ [], jwksVerifyRaw E crypto (some J) (some keyid) (some a) (some msg) (some sig)
            (some pool) = .ok) ∧
    (∀ (k : Key PKey) (algStr : Option Bytes), k.alg ≠ [] →
      verifyRawWithKey E crypto k algStr msg sig = .ok →
      AcceptsAs E crypto k msg sig k.alg ∧ ∀ a, algStr = some a → a ≠ [] → a = k.alg) := by
  refine ⟨?_, ?_, ?_, ?_⟩
  · intro k
    refine ⟨verifyRawWithKey_omitted_iff hom, fun hk a b => acceptsAs_unique hk, ?_⟩
    intro hk
    cases hr : verifyRawWithKey E crypto k omitted msg sig with
    | declined => rfl
    | error => exact absurd hr verifyRawWithKey_ne_error
    | ok =>
      have hk' := ((verifyRawWithKey_omitted_iff hom).mp hr).1
      rcases hk with hk | hk <;> rcases hk' with hk' | hk' <;>
        exact absurd (hk.symm.trans hk') (by decide)
  · intro J kid pool
    simp only [jwksVerifyRawByKid_ok_iff, verifyRawWithKey_omitted_iff hom,
      Jwks.mem_walk_restrict, isEcOrOkp_iff, AcceptsAs]
    constructor
    · rintro ⟨hsig, hkid, k, hk, hid, hty, a, hne, ha⟩
      exact ⟨a, hne, hsig, hkid, k, ⟨hk, hty⟩, hid, ha⟩
    · rintro ⟨a, hne, hsig, hkid, k, ⟨hk, hty⟩, hid, ha⟩
      exact ⟨hsig, hkid, k, hk, hid, hty, a, hne, ha⟩
  · intro J keyid pool
    simp only [jwksVerifyRaw_ok_iff, verifyRawWithKey_omitted_iff hom, isEcOrOkp_iff, AcceptsAs]
    constructor
    · rintro ⟨hsig, k, hf, hty, a, hne, ha⟩
      exact ⟨k, hf, hty, a, hne, hsig, k, hf, ha⟩
    · rintro ⟨k, hf, hty, a, hne, hsig, k', hf', ha⟩
      obtain rfl := Option.some.inj (hf.symm.trans hf')
      exact ⟨hsig, k, hf, hty, a, hne, ha⟩
  · intro k algStr hpin hok
    exact verifyRawWithKey_pin hpin hok

/-- The Ed25519 key accepts its signature without an algorithm, as it does under `EdDSA`. -/
theorem omitted_alg_ed25519 :
    verifyRawWithKey (edFacts []).env (primitive (edFacts []).env) (edKey []) none edSigningInput
      edSignature = .ok := by
  obtain ⟨hkey, -⟩ := omitted_alg (edFacts []).env (primitive (edFacts []).env)
    (show Omitted none from .inl rfl) edSigningInput edSignature
  exact (hkey (edKey [])).1.mpr ⟨.inr rfl, ascii "EdDSA", by decide, by decide +kernel⟩

end NxeJwx
