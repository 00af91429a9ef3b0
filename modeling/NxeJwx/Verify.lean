/-
# Verification: one key, one token, one detached signature

The verifying half of `nxe_jwx_jws.c`.  `verifyWithKey` is the compatibility check followed by
the switch over algorithm families; the three entry points differ in which keys they hand to
it.

The switch is the only place where cryptography happens, and it has three outcomes (1, 0, -1),
which are `TryEach.Trial`.  It is an argument (`Crypto`) of every function above it: the code
is the instance at `primitive E`, and a result that holds for an arbitrary `crypto` does not
depend on what OpenSSL answers.
-/
import NxeJwx.Decode
import NxeJwx.Keyset
import NxeJwx.Lib.TryEach

namespace NxeJwx

open TryEach

variable {PKey : Type}

/-! ## 1. The primitives -/

/-- `nxe_jwx_ecdsa_raw_to_der`. -/
def ecdsaRawToDer (O : Ossl PKey) (raw : Bytes) (coordLen : Nat) : Ret Bytes :=
  if raw.length ≠ coordLen * 2 then .declined
  else
    let r := BigEndian.ofBytes (raw.take coordLen)
    let s := BigEndian.ofBytes ((raw.drop coordLen).take coordLen)
    match O.i2dEcdsaSig r s with
    | none => .error
    | some der => if der.length = 0 then .error else .ok der

/-- `nxe_jwx_ec_curve_matches`. -/
def ecCurveMatches (O : Ossl PKey) (pkey : Option PKey) (expected : Bytes) : Bool :=
  match pkey.bind O.groupName with
  | none => false
  | some name => name == expected

/-- The three PSS setters, which `nxe_jwx_evp_verify` and `nxe_jwx_evp_sign` call in the same
order. -/
def pssParams (O : Ossl PKey) (pkey : PKey) (md : Option Digest) (c : SigParams) :
    Option SigParams :=
  match O.setRsaPadding pkey .pss c with
  | none => none
  | some c =>
    match O.setRsaPssSaltlen pkey .digest c with
    | none => none
    | some c => O.setRsaMgf1Md pkey md c

/-- `nxe_jwx_evp_verify`.  A `NULL` key fails in `EVP_DigestVerifyInit`. -/
def evpVerify (O : Ossl PKey) (pkey : Option PKey) (digest : Option Digest)
    (signingInput signature : Bytes) (pss : Bool) : Trial :=
  if !digest.all O.digestByName then .failed
  else
    match pkey with
    | none => .failed
    | some pkey =>
      match O.digestVerifyInit pkey digest with
      | none => .failed
      | some fresh =>
        match (if pss then pssParams O pkey digest fresh else some fresh) with
        | none => .failed
        | some c =>
          if O.digestVerify pkey digest c signature signingInput = 1 then .accepted
          else .rejected

/-- `nxe_jwx_hmac_verify`. -/
def hmacVerify (O : Ossl PKey) (secret : Bytes) (digest : Option Digest)
    (signingInput signature : Bytes) : Trial :=
  match digest with
  | none => .failed
  | some md =>
    if !O.digestByName md then .failed
    else
      match O.hmac md secret signingInput with
      | none => .failed
      | some mac =>
        if signature.length ≠ mac.length then .rejected
        else if mac ≠ signature then .rejected
        else .accepted

/-- What decides, after the compatibility check, whether one key accepts a signature:
arguments are the key, the algorithm, the signing input and the signature. -/
abbrev Crypto (PKey : Type) := Key PKey → Alg → Bytes → Bytes → Trial

/-- The switch of `nxe_jwx_verify_with_key`. -/
def primitive (E : Env PKey) : Crypto PKey := fun k alg signingInput signature =>
  match alg.family with
  | .rsa => evpVerify E.ossl k.pkey alg.digest signingInput signature false
  | .rsaPss => evpVerify E.ossl k.pkey alg.digest signingInput signature true
  | .ecdsa =>
    match ecdsaRawToDer E.ossl signature alg.ecCoordLen with
    | .declined => .rejected
    | .error => .failed
    | .ok der => evpVerify E.ossl k.pkey alg.digest signingInput der false
  | .eddsa => evpVerify E.ossl k.pkey none signingInput signature false
  | .hmac =>
    if E.haveHmac then hmacVerify E.ossl k.hmacSecret alg.digest signingInput signature
    else .failed

/-! ## 2. One key -/

/-- `nxe_jwx_key_compatible`.  The code asks an OKP key for its type without looking whether there
is a handle; the keys that the parsers return have one. -/
def keyCompatible (O : Ossl PKey) (k : Key PKey) (alg : Alg) : Bool :=
  if decide (k.alg.length > 0) && !isName k.alg alg.name then false
  else
    match alg.family with
    | .rsa => k.kty == .rsa
    | .rsaPss => k.kty == .rsa
    | .ecdsa =>
      if k.kty ≠ .ec then false
      else
        match alg.ecCurve with
        | none => true
        | some curve => ecCurveMatches O k.pkey curve
    | .eddsa =>
      if k.kty ≠ .okp then false
      else
        match k.pkey with
        | none => false
        | some pkey => O.baseId pkey == .ed25519 || O.baseId pkey == .ed448
    | .hmac => k.kty == .oct

/-- `nxe_jwx_verify_with_key`. -/
def verifyWithKey (E : Env PKey) (crypto : Crypto PKey) (k : Key PKey) (alg : Alg)
    (signingInput signature : Bytes) : Trial :=
  if !keyCompatible E.ossl k alg then .rejected
  else crypto k alg signingInput signature

/-! ## 3. Tokens -/

/-- The result of `nxe_jwx_jws_verify`, and whether it logged an internal error. -/
structure VerifyRun where
  rc : Rc
  internalError : Bool
  deriving DecidableEq, Repr

/-- Pass 1 of `nxe_jwx_jws_verify`: the keys with the token's kid. -/
def passOne (verify : Key PKey → Trial) (kid : Bytes) (J : Jwks PKey) : Report :=
  tryEach (fun k => decide (k.kid.length ≠ 0) && strEq kid k.kid) verify J.walk .start

/-- Pass 2 of `nxe_jwx_jws_verify`: the kid-less keys, or all keys when the token has no
kid. -/
def passTwo (verify : Key PKey → Trial) (hasKid : Bool) (J : Jwks PKey) (r : Report) : Report :=
  tryEach (fun k => !(hasKid && decide (k.kid.length > 0))) verify J.walk r

/-- The two passes of `nxe_jwx_jws_verify`.  Pass 2 is skipped when the token has a kid and
pass 1 found a key with it. -/
def passes (verify : Key PKey → Trial) (kid : Option Bytes) (J : Jwks PKey) : Report :=
  let r1 : Report :=
    match kid with
    | none => .start
    | some id => passOne verify id J
  if r1.hit then r1
  else if kid.isSome && r1.matched then r1
  else passTwo verify kid.isSome J r1

/-- `nxe_jwx_jws_verify`, with what it logs about internal errors. -/
def jwsVerifyRun (E : Env PKey) (crypto : Crypto PKey) (token : Option Token)
    (jwks : Option (Jwks PKey)) (pool : Option Pool) : VerifyRun :=
  match token, jwks, pool with
  | some t, some J, some _ =>
    match tokenAlg (some t) with
    | none => ⟨.declined, false⟩
    | some algStr =>
      if isName algStr (ascii "none") then ⟨.declined, false⟩
      else
        match lookupAlg E.haveHmac algStr with
        | none => ⟨.declined, false⟩
        | some alg =>
          if t.signature.length = 0 then ⟨.declined, false⟩
          else
            let r := passes (fun k => verifyWithKey E crypto k alg t.signingInput t.signature)
              (tokenKid (some t)) J
            if r.hit then ⟨.ok, false⟩ else ⟨.declined, r.failed⟩
  | _, _, _ => ⟨.error, false⟩

/-- `nxe_jwx_jws_verify`. -/
def jwsVerify (E : Env PKey) (crypto : Crypto PKey) (token : Option Token)
    (jwks : Option (Jwks PKey)) (pool : Option Pool) : Rc :=
  (jwsVerifyRun E crypto token jwks pool).rc

/-! ## 4. Detached signatures -/

/-- `nxe_jwx_alg_from_key`. -/
def algFromKey (E : Env PKey) (k : Key PKey) : Option Alg :=
  match k.kty with
  | .okp => (algs E.haveHmac).find? fun a => a.family == .eddsa
  | .ec =>
    (algs E.haveHmac).find? fun a =>
      a.family == .ecdsa && a.ecCurve.any (ecCurveMatches E.ossl k.pkey)
  | _ => none

/-- The algorithm a raw verification uses: the one given, or the key's own. -/
def resolveAlg (E : Env PKey) (k : Key PKey) (algStr : Option Bytes) : Option Alg :=
  match algStr with
  | none => algFromKey E k
  | some s => if s.length > 0 then lookupAlg E.haveHmac s else algFromKey E k

/-- `nxe_jwx_jwks_verify_raw_with_key`. -/
def verifyRawWithKey (E : Env PKey) (crypto : Crypto PKey) (k : Key PKey)
    (algStr : Option Bytes) (msg sig : Bytes) : Rc :=
  match resolveAlg E k algStr with
  | none => .declined
  | some alg =>
    match verifyWithKey E crypto k alg msg sig with
    | .accepted => .ok
    | _ => .declined

/-- `nxe_jwx_jwks_verify_raw`. -/
def jwksVerifyRaw (E : Env PKey) (crypto : Crypto PKey) (jwks : Option (Jwks PKey))
    (keyid algStr msg sig : Option Bytes) (pool : Option Pool) : Rc :=
  match jwks, keyid, msg, sig, pool with
  | some J, some keyid, some msg, some sig, some _ =>
    if sig.length = 0 then .declined
    else
      match findByThumbprint (some J) (some keyid) with
      | none => .declined
      | some k => verifyRawWithKey E crypto k algStr msg sig
  | _, _, _, _, _ => .error

/-- One turn of the loop of `nxe_jwx_jwks_verify_raw_by_kid`: `NGX_OK` or go on. -/
def rawTrial (E : Env PKey) (crypto : Crypto PKey) (algStr : Option Bytes) (msg sig : Bytes)
    (k : Key PKey) : Trial :=
  match verifyRawWithKey E crypto k algStr msg sig with
  | .ok => .accepted
  | _ => .rejected

/-- `nxe_jwx_jwks_verify_raw_by_kid`. -/
def jwksVerifyRawByKid (E : Env PKey) (crypto : Crypto PKey) (jwks : Option (Jwks PKey))
    (kid algStr msg sig : Option Bytes) (pool : Option Pool) : Rc :=
  match jwks, kid, msg, sig, pool with
  | some J, some kid, some msg, some sig, some _ =>
    if sig.length = 0 then .declined
    else
      let r := tryEach (fun k => decide (k.kid.length ≠ 0) && strEq kid k.kid)
        (rawTrial E crypto algStr msg sig) J.walk .start
      if r.hit then .ok else .declined
  | _, _, _, _, _ => .error

/-! ## 5. One key: what it takes to be accepted -/

variable {E : Env PKey} {crypto : Crypto PKey} {k : Key PKey} {alg : Alg} {msg sig : Bytes}

theorem verifyWithKey_accepted_iff :
    verifyWithKey E crypto k alg msg sig = .accepted ↔
      keyCompatible E.ossl k alg = true ∧ crypto k alg msg sig = .accepted := by
  unfold verifyWithKey
  cases hc : keyCompatible E.ossl k alg <;> simp

/-- The pin test in `nxe_jwx_key_compatible`: a key with a non-empty `alg` is compatible with
the algorithm of that name only. -/
theorem keyCompatible_pin (h : keyCompatible E.ossl k alg = true)
    (ha : alg ∈ algs E.haveHmac) : k.alg = [] ∨ k.alg = alg.name := by
  unfold keyCompatible at h
  split at h
  · exact absurd h (by simp)
  · next hp =>
    rw [Bool.and_eq_true, decide_eq_true_eq, Bool.not_eq_true', not_and, Bool.not_eq_false] at hp
    by_cases hk : k.alg = []
    · exact .inl hk
    · exact .inr ((isName_iff (algs_name_nul _ _ ha)).mp (hp (List.length_pos_iff.mpr hk)))

/-- The key type that an algorithm family verifies with. -/
def AlgFamily.kty : AlgFamily → Kty
  | .rsa => .rsa
  | .rsaPss => .rsa
  | .ecdsa => .ec
  | .eddsa => .okp
  | .hmac => .oct

/-- A compatible key has the type of the algorithm's family. -/
theorem keyCompatible_kty (h : keyCompatible E.ossl k alg = true) : k.kty = alg.family.kty := by
  unfold keyCompatible at h
  split at h
  · exact absurd h (by simp)
  cases hf : alg.family with
  | rsa => simpa [hf, AlgFamily.kty] using h
  | rsaPss => simpa [hf, AlgFamily.kty] using h
  | ecdsa =>
    by_contra hk
    have hk' : k.kty ≠ .ec := hk
    simp [hf, hk'] at h
  | eddsa =>
    by_contra hk
    have hk' : k.kty ≠ .okp := hk
    simp [hf, hk'] at h
  | hmac => simpa [hf, AlgFamily.kty] using h

/-- Only the ECDSA algorithms name a curve. -/
theorem algs_ecCurve {haveHmac : Bool} : ∀ a ∈ algs haveHmac,
    (a.ecCurve.isSome = true ↔ a.family = .ecdsa) := by
  cases haveHmac <;> decide

/-- A key compatible with an ECDSA algorithm is on the curve of the algorithm, as OpenSSL
reports it. -/
theorem keyCompatible_curve (h : keyCompatible E.ossl k alg = true) (ha : alg ∈ algs E.haveHmac)
    {name : Bytes} (hc : alg.ecCurve = some name) :
    ∃ p, k.pkey = some p ∧ E.ossl.groupName p = some name := by
  have hf : alg.family = .ecdsa := (algs_ecCurve alg ha).mp (by rw [hc]; rfl)
  have hk : k.kty = .ec := by rw [keyCompatible_kty h, hf]; rfl
  unfold keyCompatible at h
  split at h
  · exact absurd h (by simp)
  simp only [hf, hk, ne_eq, not_true_eq_false, if_false, hc, ecCurveMatches] at h
  split at h
  · exact absurd h (by simp)
  next group hgroup =>
  obtain ⟨p, hp, hg⟩ := Option.bind_eq_some_iff.mp hgroup
  exact ⟨p, hp, by rw [hg, beq_iff_eq.mp h]⟩

/-- Two keys of one type whose handles report the same curve and the same Edwards type: what
the compatibility check and the derived algorithm ask of a key, its `alg` apart. -/
structure SameKind (O : Ossl PKey) (k k' : Key PKey) : Prop where
  kty : k.kty = k'.kty
  group : k.kty = .ec → k.pkey.bind O.groupName = k'.pkey.bind O.groupName
  type : k.kty = .okp → k.pkey.map O.baseId = k'.pkey.map O.baseId

theorem sameKind_of_handle {O : Ossl PKey} {k k' : Key PKey} (hkty : k.kty = k'.kty)
    (hpkey : k.pkey = k'.pkey) : SameKind O k k' where
  kty := hkty
  group _ := by rw [hpkey]
  type _ := by rw [hpkey]

/-- The pin test lets a key pass that has no `alg`, or the one asked for. -/
theorem pin_passes (hp : k.alg = [] ∨ k.alg = alg.name) (ha : alg ∈ algs E.haveHmac) :
    (decide (k.alg.length > 0) && !isName k.alg alg.name) = false := by
  rcases hp with hp | hp
  · simp [hp]
  · simp [(isName_iff (algs_name_nul _ _ ha)).mpr hp]

/-- Past the pin test, compatibility is about the key type and the curve only. -/
theorem SameKind.compatible {k' : Key PKey} (hs : SameKind E.ossl k k')
    (hp : k.alg = [] ∨ k.alg = alg.name) (ha : alg ∈ algs E.haveHmac)
    (h : keyCompatible E.ossl k' alg = true) : keyCompatible E.ossl k alg = true := by
  have hkty := hs.kty.trans (keyCompatible_kty h)
  unfold keyCompatible at h ⊢
  split at h
  · exact absurd h (by simp)
  rw [pin_passes hp ha, if_neg (by simp), hs.kty]
  cases hf : alg.family with
  | rsa => simpa [hf] using h
  | rsaPss => simpa [hf] using h
  | ecdsa =>
    rw [hf] at hkty
    simpa only [hf, ecCurveMatches, hs.group hkty] using h
  | eddsa =>
    rw [hf] at hkty
    have htype := hs.type hkty
    simp only [hf] at h ⊢
    cases hk : k.pkey <;> cases hk' : k'.pkey <;>
      simp only [hk, hk', Option.map_none, Option.map_some, reduceCtorEq,
        Option.some.injEq] at h htype ⊢
    · exact h
    · rw [htype]
      exact h
  | hmac => simpa [hf] using h

/-- Keys of one kind derive the same algorithm. -/
theorem SameKind.derived {k' : Key PKey} (hs : SameKind E.ossl k k') :
    algFromKey E k = algFromKey E k' := by
  unfold algFromKey
  rw [← hs.kty]
  cases hkty : k.kty with
  | ec =>
    have hcurve : ecCurveMatches E.ossl k.pkey = ecCurveMatches E.ossl k'.pkey := by
      funext name
      unfold ecCurveMatches
      rw [hs.group hkty]
    simp only [hcurve]
  | unknown | rsa | okp | oct => rfl

theorem verifyRawWithKey_ok_iff {algStr : Option Bytes} :
    verifyRawWithKey E crypto k algStr msg sig = .ok ↔
      ∃ alg, resolveAlg E k algStr = some alg ∧
        verifyWithKey E crypto k alg msg sig = .accepted := by
  unfold verifyRawWithKey
  cases hr : resolveAlg E k algStr with
  | none => simp
  | some a => cases hv : verifyWithKey E crypto k a msg sig <;> simp [hv]

/-- A raw verification never reports an error once it has a key. -/
theorem verifyRawWithKey_ne_error {algStr : Option Bytes} :
    verifyRawWithKey E crypto k algStr msg sig ≠ .error := by
  unfold verifyRawWithKey
  cases resolveAlg E k algStr with
  | none => simp
  | some a => cases hv : verifyWithKey E crypto k a msg sig <;> simp [hv]

/-- The derived algorithm is a row of the table. -/
theorem algFromKey_mem {a : Alg} (h : algFromKey E k = some a) : a ∈ algs E.haveHmac := by
  unfold algFromKey at h
  split at h
  · exact List.mem_of_find?_eq_some h
  · exact List.mem_of_find?_eq_some h
  · exact absurd h (by simp)

theorem resolveAlg_mem {algStr : Option Bytes} {a : Alg} (h : resolveAlg E k algStr = some a) :
    a ∈ algs E.haveHmac := by
  unfold resolveAlg at h
  split at h
  · exact algFromKey_mem h
  · split at h
    · exact (lookupAlg_eq_some_iff.mp h).1
    · exact algFromKey_mem h

/-- The signature context that `nxe_jwx_evp_verify` verifies under. -/
def verifyContext (O : Ossl PKey) (pkey : PKey) (digest : Option Digest) (pss : Bool) :
    Option SigParams :=
  match O.digestVerifyInit pkey digest with
  | none => none
  | some fresh => if pss then pssParams O pkey digest fresh else some fresh

/-- A signature is accepted when OpenSSL has the digest, sets the context up and verifies. -/
theorem evpVerify_accepted_iff {O : Ossl PKey} {pkey : Option PKey} {digest : Option Digest}
    {pss : Bool} :
    evpVerify O pkey digest msg sig pss = .accepted ↔ digest.all O.digestByName = true ∧
      ∃ p c, pkey = some p ∧ verifyContext O p digest pss = some c ∧
        O.digestVerify p digest c sig msg = 1 := by
  unfold evpVerify verifyContext
  cases hd : digest.all O.digestByName with
  | false => simp
  | true =>
    cases pkey with
    | none => simp
    | some p =>
      cases hi : O.digestVerifyInit p digest with
      | none => simp [hi]
      | some fresh =>
        cases hc : (if pss then pssParams O p digest fresh else some fresh) <;> simp [hi, hc]

/-- What the table says that the two switches rely on. -/
theorem algs_columns (haveHmac : Bool) : ∀ a ∈ algs haveHmac,
    (a.family = .eddsa → a.digest = none) ∧ (a.family = .ecdsa → 0 < a.ecCoordLen) := by
  cases haveHmac <;> decide

/-- What OpenSSL has answered when a signature is accepted.  For an HMAC the signature is the MAC
of the message under the secret.  Else `EVP_DigestVerify` takes the signature, an ECDSA one in its
DER form, with the digest of the algorithm and under the context of the handle, which has the
parameters of PSS for the PS* algorithms only. -/
inductive Authentic (E : Env PKey) (alg : Alg) (pkey : Option PKey) (secret msg sig : Bytes) : Prop
  | mac {md : Digest} (family : alg.family = .hmac) (build : E.haveHmac = true)
      (digest : alg.digest = some md) (available : E.ossl.digestByName md = true)
      (mac : E.ossl.hmac md secret msg = some sig)
  | signature {p : PKey} {c : SigParams} {octets : Bytes} (family : alg.family ≠ .hmac)
      (pkey : pkey = some p) (available : alg.digest.all E.ossl.digestByName = true)
      (form : if alg.family = .ecdsa then ecdsaRawToDer E.ossl sig alg.ecCoordLen = .ok octets
        else octets = sig)
      (context : verifyContext E.ossl p alg.digest (alg.family == .rsaPss) = some c)
      (verified : E.ossl.digestVerify p alg.digest c octets msg = 1)

theorem hmacVerify_accepted_iff {O : Ossl PKey} {secret : Bytes} {digest : Option Digest} :
    hmacVerify O secret digest msg sig = .accepted ↔
      ∃ md, digest = some md ∧ O.digestByName md = true ∧ O.hmac md secret msg = some sig := by
  unfold hmacVerify
  cases digest with
  | none => simp
  | some md =>
    cases hname : O.digestByName md with
    | false => simp [hname]
    | true =>
      cases hmac : O.hmac md secret msg with
      | none => simp [hmac]
      | some mac =>
        by_cases heq : mac = sig
        · simp [hname, hmac, heq]
        · by_cases hlen : sig.length = mac.length <;> simp [hname, hmac, heq, hlen]

/-- For an HMAC there is no other way. -/
theorem authentic_hmac_iff (hf : alg.family = .hmac) {pkey : Option PKey} {secret : Bytes} :
    Authentic E alg pkey secret msg sig ↔ E.haveHmac = true ∧
      ∃ md, alg.digest = some md ∧ E.ossl.digestByName md = true ∧
        E.ossl.hmac md secret msg = some sig := by
  constructor
  · intro h
    cases h with
    | mac _ build digest available mac => exact ⟨build, _, digest, available, mac⟩
    | signature family => exact absurd hf family
  · rintro ⟨build, md, digest, available, mac⟩
    exact .mac hf build digest available mac

/-- For the others it is `nxe_jwx_evp_verify` that accepts. -/
theorem evp_accepted_iff_authentic (hne : alg.family ≠ .hmac) {octets : Bytes} {pss : Bool}
    (hpss : (alg.family == .rsaPss) = pss)
    (hform : if alg.family = .ecdsa then ecdsaRawToDer E.ossl sig alg.ecCoordLen = .ok octets
      else octets = sig) :
    evpVerify E.ossl k.pkey alg.digest msg octets pss = .accepted ↔
      Authentic E alg k.pkey k.hmacSecret msg sig := by
  rw [evpVerify_accepted_iff, ← hpss]
  constructor
  · rintro ⟨hmd, p, c, hp, hc, hver⟩
    exact .signature hne hp hmd hform hc hver
  · intro h
    cases h with
    | mac family => exact absurd family hne
    | @signature p c octets' _ hp hmd hform' hc hver =>
      -- the DER form is a function of the signature
      have : octets' = octets := by
        split at hform
        next hec =>
          rw [if_pos hec] at hform'
          exact Ret.ok.inj (hform'.symm.trans hform)
        next hec =>
          rw [if_neg hec] at hform'
          exact hform'.trans hform.symm
      exact ⟨hmd, p, c, hp, hc, this ▸ hver⟩

/-- The switch accepts what OpenSSL has answered so. -/
theorem primitive_accepted_iff (ha : alg ∈ algs E.haveHmac) :
    primitive E k alg msg sig = .accepted ↔ Authentic E alg k.pkey k.hmacSecret msg sig := by
  cases hf : alg.family with
  | rsa =>
    simp only [primitive, hf]
    exact evp_accepted_iff_authentic (by simp [hf]) (by rw [hf]; rfl) (by simp [hf])
  | rsaPss =>
    simp only [primitive, hf]
    exact evp_accepted_iff_authentic (by simp [hf]) (by rw [hf]; rfl) (by simp [hf])
  | eddsa =>
    simp only [primitive, hf]
    rw [← (algs_columns _ alg ha).1 hf]
    exact evp_accepted_iff_authentic (by simp [hf]) (by rw [hf]; rfl) (by simp [hf])
  | ecdsa =>
    simp only [primitive, hf]
    cases hder : ecdsaRawToDer E.ossl sig alg.ecCoordLen with
    | ok der =>
      exact evp_accepted_iff_authentic (by simp [hf]) (by rw [hf]; rfl) (by simp [hf, hder])
    | declined | error =>
      refine ⟨fun h => absurd h (by simp), fun h => ?_⟩
      cases h with
      | mac family => exact absurd family (by simp [hf])
      | signature _ _ _ form => exact absurd form (by simp [hf, hder])
  | hmac =>
    rw [authentic_hmac_iff hf]
    simp only [primitive, hf]
    split
    next hbuild =>
      rw [hmacVerify_accepted_iff]
      exact (and_iff_right hbuild).symm
    next hbuild => exact iff_of_false (by simp) fun h => hbuild h.1

/-- The code reads a key through its kid, alg, kty, handle and secret; in particular the
compatibility check and the primitive ignore its kid, `crv` and thumbprint. -/
theorem primitive_congr {k k' : Key PKey} (hpkey : k.pkey = k'.pkey)
    (hs : k.hmacSecret = k'.hmacSecret) : primitive E k = primitive E k' := by
  funext alg msg sig
  simp only [primitive, hpkey, hs]

end NxeJwx
