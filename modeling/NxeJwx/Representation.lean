/-
# What a keyset is

The two parsers set the tag, `crv`, the handle and the secret of a key in different functions,
and the verifier relies on their going together.  This file says what they establish
(`keyset_representation`):

* a returned keyset has 1 to 64 keys and no more than its slots, and at every turn of either
  loop there is a free slot for each input still to come;
* each key has what its tag says (`KeyRep`): an oct key has a secret and no handle, any other key
  a handle of its type, on the curve that `crv` names;
* so no call on a key is made with a `NULL` handle or an empty secret.

For the last point the verifier and the thumbprint are stated once more with the calls they make
on a key (`verifyWithKeyTraced`, `jwkThumbprintTraced`).
-/
import NxeJwx.Canonical
import NxeJwx.EntryList
import NxeJwx.Verify
import NxeJwx.Lib.Trace

namespace NxeJwx

open TryEach Traced FillSlots

variable {PKey : Type}

/-! ## 1. The calls on a key -/

/-- A call that is handed a key: OpenSSL with a handle, which may be `NULL`, or HMAC with a
secret. -/
inductive KeyCall (PKey : Type) where
  | evp (pkey : Option PKey)
  | hmac (secret : Bytes)

/-- The handle is there, the secret is not empty. -/
def KeyCall.Sound : KeyCall PKey → Prop
  | .evp pkey => pkey ≠ none
  | .hmac secret => secret ≠ []

/-- `nxe_jwx_ec_curve_matches`: `EVP_PKEY_get_group_name`. -/
def ecCurveMatchesTraced (O : Ossl PKey) (pkey : Option PKey) (expected : Bytes) :
    Traced (KeyCall PKey) Bool := do
  emit (.evp pkey)
  return ecCurveMatches O pkey expected

/-- `nxe_jwx_evp_verify`: `EVP_DigestVerifyInit`; the later calls are on the context. -/
def evpVerifyTraced (O : Ossl PKey) (pkey : Option PKey) (digest : Option Digest)
    (signingInput signature : Bytes) (pss : Bool) : Traced (KeyCall PKey) Trial :=
  if !digest.all O.digestByName then return .failed
  else do
    emit (.evp pkey)
    return evpVerify O pkey digest signingInput signature pss

/-- `nxe_jwx_hmac_verify`: `HMAC`. -/
def hmacVerifyTraced (O : Ossl PKey) (secret : Bytes) (digest : Option Digest)
    (signingInput signature : Bytes) : Traced (KeyCall PKey) Trial :=
  match digest with
  | none => return .failed
  | some md =>
    if !O.digestByName md then return .failed
    else do
      emit (.hmac secret)
      return hmacVerify O secret (some md) signingInput signature

/-- `nxe_jwx_key_compatible`: `EVP_PKEY_base_id` for EdDSA. -/
def keyCompatibleTraced (O : Ossl PKey) (k : Key PKey) (alg : Alg) :
    Traced (KeyCall PKey) Bool :=
  if decide (k.alg.length > 0) && !isName k.alg alg.name then return false
  else
    match alg.family with
    | .rsa => return k.kty == .rsa
    | .rsaPss => return k.kty == .rsa
    | .ecdsa =>
      if k.kty ≠ .ec then return false
      else
        match alg.ecCurve with
        | none => return true
        | some curve => ecCurveMatchesTraced O k.pkey curve
    | .eddsa =>
      if k.kty ≠ .okp then return false
      else do
        emit (.evp k.pkey)
        return match k.pkey with
          | none => false
          | some pkey => O.baseId pkey == .ed25519 || O.baseId pkey == .ed448
    | .hmac => return k.kty == .oct

/-- The switch of `nxe_jwx_verify_with_key`. -/
def primitiveTraced (E : Env PKey) (k : Key PKey) (alg : Alg) (signingInput signature : Bytes) :
    Traced (KeyCall PKey) Trial :=
  match alg.family with
  | .rsa => evpVerifyTraced E.ossl k.pkey alg.digest signingInput signature false
  | .rsaPss => evpVerifyTraced E.ossl k.pkey alg.digest signingInput signature true
  | .ecdsa =>
    match ecdsaRawToDer E.ossl signature alg.ecCoordLen with
    | .declined => return .rejected
    | .error => return .failed
    | .ok der => evpVerifyTraced E.ossl k.pkey alg.digest signingInput der false
  | .eddsa => evpVerifyTraced E.ossl k.pkey none signingInput signature false
  | .hmac =>
    if E.haveHmac then hmacVerifyTraced E.ossl k.hmacSecret alg.digest signingInput signature
    else return .failed

/-- `nxe_jwx_verify_with_key`. -/
def verifyWithKeyTraced (E : Env PKey) (k : Key PKey) (alg : Alg)
    (signingInput signature : Bytes) : Traced (KeyCall PKey) Trial := do
  let compatible ← keyCompatibleTraced E.ossl k alg
  if !compatible then return .rejected
  else primitiveTraced E k alg signingInput signature

/-- `EVP_PKEY_get_bn_param`. -/
def bnParamTraced (get : PKey → Option Nat) (pkey : Option PKey) :
    Traced (KeyCall PKey) (Option Nat) := do
  emit (.evp pkey)
  return pkey.bind get

/-- `nxe_jwx_thumbprint_rsa`: the two components are read, the rest is text. -/
def thumbprintRsaTraced (E : Env PKey) (f : ThumbprintFaults) (k : Key PKey) :
    Traced (KeyCall PKey) (Option Bytes) := do
  let n ← bnParamTraced E.ossl.rsaN k.pkey
  if n.isNone then return none
  else
    let _ ← bnParamTraced E.ossl.rsaE k.pkey
    return thumbprintRsa E f k

/-- `nxe_jwx_thumbprint_ec`: `EVP_PKEY_bits` and the two coordinates. -/
def thumbprintEcTraced (E : Env PKey) (f : ThumbprintFaults) (k : Key PKey) :
    Traced (KeyCall PKey) (Option Bytes) := do
  emit (.evp k.pkey)
  if k.pkey.all fun pkey => decide (E.ossl.bits pkey ≤ 0) then return none
  else
    let x ← bnParamTraced E.ossl.ecX k.pkey
    if x.isNone then return none
    else
      let _ ← bnParamTraced E.ossl.ecY k.pkey
      return thumbprintEc E f k

/-- `nxe_jwx_thumbprint_okp`: `EVP_PKEY_get_raw_public_key`. -/
def thumbprintOkpTraced (E : Env PKey) (f : ThumbprintFaults) (k : Key PKey) :
    Traced (KeyCall PKey) (Option Bytes) := do
  emit (.evp k.pkey)
  return thumbprintOkp E f k

/-- The switch of `nxe_jwx_jwk_thumbprint`.  A secret is encoded, not handed to a call. -/
def thumbprintTextTraced (E : Env PKey) (f : ThumbprintFaults) (k : Key PKey) :
    Traced (KeyCall PKey) (Ret Bytes) :=
  match k.kty with
  | .rsa => do return .ofOption (← thumbprintRsaTraced E f k)
  | .ec => do return .ofOption (← thumbprintEcTraced E f k)
  | .okp => do return .ofOption (← thumbprintOkpTraced E f k)
  | .oct => return thumbprintText E f k
  | .unknown => return .declined

/-- `nxe_jwx_jwk_thumbprint`: the digest and its encoding need no key. -/
def jwkThumbprintTraced (E : Env PKey) (f : ThumbprintFaults) (key : Key PKey) :
    Traced (KeyCall PKey) (Rc × Key PKey) := do
  let k := { key with thumbprint := [] }
  match ← thumbprintTextTraced E f k with
  | .declined => return (.declined, k)
  | .error => return (.error, k)
  | .ok json =>
    if !E.ossl.digestByName .sha256 then return (.error, k)
    else
      match (if f .digest then none else E.ossl.digest .sha256 json) with
      | none => return (.error, k)
      | some digest =>
        match encodeB64url E (f .out) digest with
        | none => return (.error, k)
        | some thumbprint => return (.ok, { k with thumbprint := thumbprint })

/-! ## 2. The traced functions return what the functions return -/

variable {E : Env PKey}

theorem val_evpVerifyTraced (O : Ossl PKey) (pkey : Option PKey) (digest : Option Digest)
    (signingInput signature : Bytes) (pss : Bool) :
    (evpVerifyTraced O pkey digest signingInput signature pss).val =
      evpVerify O pkey digest signingInput signature pss := by
  unfold evpVerifyTraced
  split
  next h => simp only [evpVerify, h, if_true, val_pure]
  · rfl

theorem val_hmacVerifyTraced (O : Ossl PKey) (secret : Bytes) (digest : Option Digest)
    (signingInput signature : Bytes) :
    (hmacVerifyTraced O secret digest signingInput signature).val =
      hmacVerify O secret digest signingInput signature := by
  cases digest with
  | none => rfl
  | some md =>
    unfold hmacVerifyTraced
    dsimp only
    split
    next h => simp only [hmacVerify, h, if_true, val_pure]
    · rfl

theorem val_keyCompatibleTraced (O : Ossl PKey) (k : Key PKey) (alg : Alg) :
    (keyCompatibleTraced O k alg).val = keyCompatible O k alg := by
  unfold keyCompatibleTraced keyCompatible
  split
  · rfl
  cases alg.family with
  | rsa | rsaPss | hmac => rfl
  | ecdsa =>
    dsimp only
    split
    · rfl
    cases alg.ecCurve <;> rfl
  | eddsa =>
    dsimp only
    split <;> rfl

theorem val_primitiveTraced (k : Key PKey) (alg : Alg) (signingInput signature : Bytes) :
    (primitiveTraced E k alg signingInput signature).val =
      primitive E k alg signingInput signature := by
  unfold primitiveTraced primitive
  cases alg.family with
  | rsa | rsaPss | eddsa => exact val_evpVerifyTraced ..
  | ecdsa =>
    dsimp only
    cases ecdsaRawToDer E.ossl signature alg.ecCoordLen with
    | declined | error => rfl
    | ok der => exact val_evpVerifyTraced ..
  | hmac =>
    dsimp only
    split
    · exact val_hmacVerifyTraced ..
    · rfl

/-- The verifier, without its trace. -/
theorem val_verifyWithKeyTraced (k : Key PKey) (alg : Alg) (signingInput signature : Bytes) :
    (verifyWithKeyTraced E k alg signingInput signature).val =
      verifyWithKey E (primitive E) k alg signingInput signature := by
  unfold verifyWithKeyTraced verifyWithKey
  rw [val_bind, val_keyCompatibleTraced]
  split
  · rfl
  · exact val_primitiveTraced ..

/-- Without a modulus there is no text. -/
theorem thumbprintRsa_eq_none {f : ThumbprintFaults} {k : Key PKey}
    (h : (k.pkey.bind E.ossl.rsaN).isNone = true) : thumbprintRsa E f k = none := by
  rw [Option.isNone_iff_eq_none] at h
  unfold thumbprintRsa
  cases hp : k.pkey with
  | none => rfl
  | some pkey =>
    rw [hp, Option.bind_some] at h
    simp only [Option.bind_eq_bind, Option.bind_some, h, Option.bind_none]

/-- Nor is there one without a size. -/
theorem thumbprintEc_eq_none_of_bits {f : ThumbprintFaults} {k : Key PKey}
    (h : (k.pkey.all fun pkey => decide (E.ossl.bits pkey ≤ 0)) = true) :
    thumbprintEc E f k = none := by
  unfold thumbprintEc
  cases hp : k.pkey with
  | none => rfl
  | some pkey =>
    rw [hp, Option.all_some, decide_eq_true_eq] at h
    simp only [Option.bind_eq_bind, Option.bind_some, if_pos h]

/-- ... or without an x coordinate. -/
theorem thumbprintEc_eq_none {f : ThumbprintFaults} {k : Key PKey}
    (h : (k.pkey.bind E.ossl.ecX).isNone = true) : thumbprintEc E f k = none := by
  rw [Option.isNone_iff_eq_none] at h
  unfold thumbprintEc
  cases hp : k.pkey with
  | none => rfl
  | some pkey =>
    rw [hp, Option.bind_some] at h
    simp only [Option.bind_eq_bind, Option.bind_some, h, Option.bind_none, ite_self]

/-- The text of a thumbprint, without its trace. -/
theorem val_thumbprintTextTraced (f : ThumbprintFaults) (k : Key PKey) :
    (thumbprintTextTraced E f k).val = thumbprintText E f k := by
  unfold thumbprintTextTraced thumbprintText
  cases hk : k.kty with
  | rsa =>
    dsimp only [thumbprintRsaTraced, bnParamTraced, val_bind, val_pure]
    split
    next h => rw [thumbprintRsa_eq_none h, val_pure]
    · rfl
  | ec =>
    dsimp only [thumbprintEcTraced, bnParamTraced, val_bind, val_pure]
    split
    next h => rw [thumbprintEc_eq_none_of_bits h, val_pure]
    · dsimp only [val_bind, val_pure]
      split
      next h => rw [thumbprintEc_eq_none h, val_pure]
      · rfl
  | okp => rfl
  | oct => simp
  | unknown => rfl

/-- The thumbprint, without its trace. -/
theorem val_jwkThumbprintTraced (f : ThumbprintFaults) (k : Key PKey) :
    (jwkThumbprintTraced E f k).val = jwkThumbprint E f k := by
  unfold jwkThumbprintTraced jwkThumbprint
  dsimp only
  rw [val_bind, val_thumbprintTextTraced]
  cases thumbprintText E f { k with thumbprint := [] } with
  | declined | error => rfl
  | ok json =>
    dsimp only
    split
    · rfl
    cases (if f .digest then none else E.ossl.digest .sha256 json) with
    | none => rfl
    | some digest =>
      dsimp only
      cases encodeB64url E (f .out) digest <;> rfl

/-! ## 3. Every call on a key is sound -/

/-- A key has the handle or the secret that its tag says. -/
structure Loaded (k : Key PKey) : Prop where
  known : k.kty ≠ .unknown
  oct_pkey : k.kty = .oct ↔ k.pkey = none
  oct_secret : k.kty = .oct ↔ k.hmacSecret ≠ []

theorem Loaded.pkey_ne {k : Key PKey} (h : Loaded k) (hk : k.kty ≠ .oct) : k.pkey ≠ none :=
  fun hp => hk (h.oct_pkey.mpr hp)

section Calls

variable {P : KeyCall PKey → Prop}

theorem only_ecCurveMatches (O : Ossl PKey) {pkey : Option PKey} (hp : P (.evp pkey))
    (expected : Bytes) : Only P (ecCurveMatchesTraced O pkey expected) :=
  .bind (.emit hp) (.pure _)

theorem only_evpVerify (O : Ossl PKey) {pkey : Option PKey} (hp : P (.evp pkey))
    (digest : Option Digest) (signingInput signature : Bytes) (pss : Bool) :
    Only P (evpVerifyTraced O pkey digest signingInput signature pss) :=
  .ite (fun _ => .pure _) fun _ => .bind (.emit hp) (.pure _)

theorem only_hmacVerify (O : Ossl PKey) {secret : Bytes} (hs : P (.hmac secret))
    (digest : Option Digest) (signingInput signature : Bytes) :
    Only P (hmacVerifyTraced O secret digest signingInput signature) := by
  cases digest with
  | none => exact .pure _
  | some md => exact .ite (fun _ => .pure _) fun _ => .bind (.emit hs) (.pure _)

variable {k : Key PKey}

theorem only_keyCompatible (O : Ossl PKey) (hp : k.kty ≠ .oct → P (.evp k.pkey)) (alg : Alg) :
    Only P (keyCompatibleTraced O k alg) := by
  unfold keyCompatibleTraced
  refine .ite (fun _ => .pure _) ?_
  intro _
  cases alg.family with
  | rsa | rsaPss | hmac => exact .pure _
  | ecdsa =>
    refine .ite (fun _ => .pure _) ?_
    intro hk
    rw [not_not] at hk
    cases alg.ecCurve with
    | none => exact .pure _
    | some curve => exact only_ecCurveMatches O (hp (by simp [hk])) curve
  | eddsa =>
    refine .ite (fun _ => .pure _) ?_
    intro hk
    rw [not_not] at hk
    exact .bind (.emit (hp (by simp [hk]))) (.pure _)

/-- The switch is on the family of an algorithm that the key is compatible with, so its tag is
that of the family. -/
theorem only_primitive (hp : k.kty ≠ .oct → P (.evp k.pkey))
    (hs : k.kty = .oct → P (.hmac k.hmacSecret)) {alg : Alg} (hk : k.kty = alg.family.kty)
    (signingInput signature : Bytes) : Only P (primitiveTraced E k alg signingInput signature) := by
  unfold primitiveTraced
  cases hf : alg.family with
  | rsa | rsaPss | eddsa =>
    rw [hf] at hk
    exact only_evpVerify _ (hp (by simp [hk, AlgFamily.kty])) _ _ _ _
  | ecdsa =>
    rw [hf] at hk
    dsimp only
    cases ecdsaRawToDer E.ossl signature alg.ecCoordLen with
    | declined | error => exact .pure _
    | ok der => exact only_evpVerify _ (hp (by simp [hk, AlgFamily.kty])) _ _ _ _
  | hmac =>
    rw [hf] at hk
    exact .ite (fun _ => only_hmacVerify _ (hs hk) _ _ _) fun _ => .pure _

/-- The verifier calls OpenSSL with the handle of a key that is not symmetric, and HMAC with the
secret of one that is. -/
theorem only_verifyWithKey (hp : k.kty ≠ .oct → P (.evp k.pkey))
    (hs : k.kty = .oct → P (.hmac k.hmacSecret)) (alg : Alg) (signingInput signature : Bytes) :
    Only P (verifyWithKeyTraced E k alg signingInput signature) := by
  refine .bind (only_keyCompatible _ hp alg) (.ite (fun _ => .pure _) ?_)
  intro hc
  rw [val_keyCompatibleTraced] at hc
  exact only_primitive hp hs (keyCompatible_kty (by simpa using hc)) _ _

theorem only_bnParam (get : PKey → Option Nat) {pkey : Option PKey} (hp : P (.evp pkey)) :
    Only P (bnParamTraced get pkey) :=
  .bind (.emit hp) (.pure _)

/-- The text of the thumbprint is read from the handle, and a secret is encoded by the code. -/
theorem only_thumbprintText (hp : k.kty ≠ .oct → P (.evp k.pkey)) (f : ThumbprintFaults) :
    Only P (thumbprintTextTraced E f k) := by
  unfold thumbprintTextTraced
  cases hk : k.kty with
  | rsa =>
    have hp := hp (by simp [hk])
    refine .bind (.bind (only_bnParam _ hp) (.ite (fun _ => .pure _) fun _ => ?_)) (.pure _)
    exact .bind (only_bnParam _ hp) (.pure _)
  | ec =>
    have hp := hp (by simp [hk])
    refine .bind (.bind (.emit hp) (.ite (fun _ => .pure _) fun _ => ?_)) (.pure _)
    refine .bind (only_bnParam _ hp) (.ite (fun _ => .pure _) ?_)
    intro _
    exact .bind (only_bnParam _ hp) (.pure _)
  | okp => exact .bind (.bind (.emit (hp (by simp [hk]))) (.pure _)) (.pure _)
  | oct | unknown => exact .pure _

/-- The digest of the text and its encoding make no call on the key. -/
theorem only_jwkThumbprint (hp : k.kty ≠ .oct → P (.evp k.pkey)) (f : ThumbprintFaults) :
    Only P (jwkThumbprintTraced E f k) := by
  have htext : Only P (thumbprintTextTraced E f { k with thumbprint := [] }) :=
    only_thumbprintText (k := { k with thumbprint := [] }) hp f
  refine .bind htext ?_
  cases (thumbprintTextTraced E f { k with thumbprint := [] }).val with
  | declined | error => exact .pure _
  | ok json =>
    refine .ite (fun _ => .pure _) fun _ => ?_
    cases (if f .digest then none else E.ossl.digest .sha256 json) with
    | none => exact .pure _
    | some digest =>
      dsimp only
      cases encodeB64url E (f .out) digest <;> exact .pure _

end Calls

/-- The traced function returns what the function returns, and none of its calls on a key lacks a
handle or a secret. -/
structure SoundTwin {α : Type} (x : Traced (KeyCall PKey) α) (a : α) : Prop where
  val : x.val = a
  only : Only KeyCall.Sound x

/-- The verifier on a loaded key. -/
theorem Loaded.verifyWithKey {k : Key PKey} (h : Loaded k) (alg : Alg)
    (signingInput signature : Bytes) :
    SoundTwin (verifyWithKeyTraced E k alg signingInput signature)
      (verifyWithKey E (primitive E) k alg signingInput signature) where
  val := val_verifyWithKeyTraced ..
  only := only_verifyWithKey h.pkey_ne h.oct_secret.mp _ _ _

/-- The thumbprint of a key that has a handle unless it is symmetric. -/
theorem soundTwin_jwkThumbprint {k : Key PKey} (h : k.kty ≠ .oct → k.pkey ≠ none)
    (f : ThumbprintFaults) : SoundTwin (jwkThumbprintTraced E f k) (jwkThumbprint E f k) where
  val := val_jwkThumbprintTraced f k
  only := only_jwkThumbprint h f

/-! ## 4. The keys -/

/-- What a key is: its tag, `crv`, handle and secret agree. -/
structure KeyRep (O : Ossl PKey) (k : Key PKey) : Prop extends Loaded k where
  rsa : k.kty = .rsa → ∃ p, k.pkey = some p ∧ (O.baseId p = .rsa ∨ O.baseId p = .rsaPss)
  ec : k.kty = .ec → ∃ p, k.pkey = some p ∧ O.baseId p = .ec ∧
    ∃ c ∈ ecCurves, k.crv = c.jwkCrv ∧ O.groupName p = some c.osslName
  okp : k.kty = .okp → ∃ p, k.pkey = some p ∧ (O.baseId p = .ed25519 ∨ O.baseId p = .ed448) ∧
    ∃ c ∈ okpCurves, k.crv = c.jwkCrv ∧ O.baseId p = c.nid

theorem KeyInv.loaded {O : Ossl PKey} {k : Key PKey} (h : KeyInv O k) : Loaded k := by
  cases h with
  | rsa kty pkey _ secret => exact ⟨by simp [kty], by simp [kty, pkey], by simp [kty, secret]⟩
  | ec kty pkey _ _ _ secret => exact ⟨by simp [kty], by simp [kty, pkey], by simp [kty, secret]⟩
  | okp kty pkey _ _ secret => exact ⟨by simp [kty], by simp [kty, pkey], by simp [kty, secret]⟩
  | oct kty pkey secret => exact ⟨by simp [kty], by simp [kty, pkey], by simp [kty, secret]⟩

theorem KeyInv.rep {O : Ossl PKey} {k : Key PKey} (h : KeyInv O k) : KeyRep O k := by
  refine ⟨h.loaded, ?_, ?_, ?_⟩
  · intro hk
    cases h with
    | rsa _ pkey type => exact ⟨_, pkey, type⟩
    | ec kty | okp kty | oct kty => exact absurd (hk.symm.trans kty) (by simp)
  · intro hk
    cases h with
    | ec _ pkey type row group =>
      obtain ⟨hc, hcrv⟩ := lookupEcCurve_eq_some_iff.mp row
      exact ⟨_, pkey, type, _, hc, hcrv.symm, group⟩
    | rsa kty | okp kty | oct kty => exact absurd (hk.symm.trans kty) (by simp)
  · intro hk
    cases h with
    | okp _ pkey row type =>
      obtain ⟨hc, hcrv⟩ := lookupOkpCurve_eq_some_iff.mp row
      exact ⟨_, pkey, type ▸ okpCurves_nid _ hc, _, hc, hcrv.symm, type⟩
    | rsa kty | ec kty | oct kty => exact absurd (hk.symm.trans kty) (by simp)

/-- The key of an admissible material whose handle was made is loaded, and so is the slot that a
parser of a key type leaves. -/
theorem KtyOk.loaded {jwk : Json} {k : Key PKey} (h : KtyOk E jwk k) : Loaded k := by
  obtain ⟨m, -, hadm, hmade, rfl⟩ := h
  cases m with
  | rsa | ec | okp =>
    obtain ⟨p, hp⟩ := Option.isSome_iff_exists.mp (hmade.resolve_left (by simp [Material.kty]))
    exact ⟨by simp [jwkKey, Material.kty], by simp [jwkKey, Material.kty, hp],
      by simp [jwkKey, Material.kty, Material.secret]⟩
  | oct s =>
    have hne : s ≠ [] := hadm
    exact ⟨by simp [jwkKey, Material.kty], by simp [jwkKey, Material.kty, Material.pkey],
      by simp [jwkKey, Material.kty, Material.secret, hne]⟩

/-! ## 5. The keyset -/

/-- What a returned keyset is. -/
structure KeysetRep (E : Env PKey) (J : Jwks PKey) : Prop where
  nkeys : 1 ≤ J.nkeys ∧ J.nkeys ≤ maxJwksKeys ∧ J.nkeys ≤ J.keys.length
  keys : ∀ i < J.nkeys, ∃ k, J.keyAt i = some k ∧ KeyRep E.ossl k ∧
    (∀ alg signingInput signature,
      SoundTwin (verifyWithKeyTraced E k alg signingInput signature)
        (verifyWithKey E (primitive E) k alg signingInput signature)) ∧
    ∀ f, SoundTwin (jwkThumbprintTraced E f k) (jwkThumbprint E f k)

/-- The loop over `is` stays within its slots: it never steps past the last one, and at each of
its turns, which are those that it reaches, no more slots are used than there are, and one is
free while an input is left. -/
structure StaysWithin {ι : Type} (full : Nat → Bool) (step : ι → Key PKey → Outcome × Key PKey)
    (is : List ι) (capacity : Nat) : Prop where
  run : ∃ rest s, Reaches full step (is, .blank capacity .zero) (rest, s) ∧
    (fill full step is (.blank capacity .zero) = .done s ∨
      ∃ k, fill full step is (.blank capacity .zero) = .aborted (s.put k))
  turns : ∀ rest s, Reaches full step (is, .blank capacity .zero) (rest, s) →
    s.cells.length = capacity ∧ s.count ≤ capacity ∧ (rest ≠ [] → s.count < capacity)

theorem staysWithin_of_le {ι : Type} (full : Nat → Bool)
    (step : ι → Key PKey → Outcome × Key PKey) {is : List ι} {capacity : Nat}
    (h : is.length ≤ capacity) : StaysWithin full step is capacity where
  run := fill_end full step is _ (room_blank h)
  turns rest s hreach := by
    obtain ⟨hroom, hlen⟩ := reaches_room hreach (room_blank h)
    simp only [Room, Slots.blank, List.length_replicate] at hroom hlen
    rw [hlen] at hroom
    refine ⟨hlen, by omega, ?_⟩
    intro hrest
    have hpos := List.length_pos_iff.mpr hrest
    omega

/-- The counter of a keyset, from the loop that it comes out of. -/
theorem nkeys_of_returned {J : Jwks PKey} (hJ : Returned E J) :
    1 ≤ J.nkeys ∧ J.nkeys ≤ maxJwksKeys ∧ J.nkeys ≤ J.keys.length := by
  rcases hJ with ⟨F, doc, pool, h⟩ | ⟨F, doc, pool, h⟩
  · obtain ⟨entries, hd, -, -, hrun⟩ := jwksParse_run h
    obtain ⟨hpos, hle, hlen⟩ := keysetOfRun_count (zipIdx_le_capacity entries) hrun
    have hcapacity : jwksCapacity entries ≤ maxJwksKeys := by
      have := hd.count
      rw [jwksCapacity]
      split
      · exact this
      · decide
    omega
  · obtain ⟨members, hd, -, -, -, hrun⟩ := keyvalParse_run h
    obtain ⟨hpos, hle, hlen⟩ := keysetOfRun_count (zipIdx_le_length members) hrun
    have := hd.count
    omega

theorem keysetRep_of_returned (hl : E.ossl.KeyLaws) {J : Jwks PKey} (hJ : Returned E J) :
    KeysetRep E J := by
  have hn := nkeys_of_returned hJ
  refine ⟨hn, ?_⟩
  intro i hi
  have hlt : i < J.walk.length := by
    rw [length_walk hn.2.2]
    exact hi
  have hat : J.keyAt i = some J.walk[i] := by
    rw [Jwks.keyAt_eq_walk, List.getElem?_eq_getElem hlt]
  obtain ⟨hinv, -⟩ := keyInv_of_returned hl hJ (List.getElem_mem hlt)
  exact ⟨_, hat, hinv.rep, hinv.loaded.verifyWithKey,
    soundTwin_jwkThumbprint hinv.loaded.pkey_ne⟩

/-- **The representation invariant of a keyset.**  The last two parts are about the keys that the
two loops hand to `nxe_jwx_jwk_thumbprint`, in documents that are rejected later on too. -/
theorem keyset_representation (hl : E.ossl.KeyLaws) :
    (∀ J, Returned E J → KeysetRep E J) ∧
    (∀ F doc pool J, keyvalParse E F (some doc) (some pool) = some J →
      ∀ k ∈ J.walk, k.kid ≠ [] ∧ k.alg = [] ∧ k.kty ≠ .oct) ∧
    (∀ F doc entries, KeysArray E doc entries → StaysWithin (fun _ => false) (jwksStep E F)
      entries.zipIdx (jwksCapacity entries)) ∧
    (∀ F doc members, KeyvalMembers E doc members →
      StaysWithin (fun count => decide (count ≥ maxJwksKeys)) (keyvalStep E F) members.zipIdx
        members.length) ∧
    (∀ f kty jwk k, jwk.stringAt (ascii "kty") = some kty →
      parseKty E f kty (labelled jwk) jwk = (.ok, k) →
        ∀ f', SoundTwin (jwkThumbprintTraced E f' k) (jwkThumbprint E f' k)) ∧
    (∀ slot pkey k kid, keyvalCrv E.ossl pkey slot = some k → ∀ f,
      SoundTwin
        (jwkThumbprintTraced E f
          { k with pkey := some pkey, kty := ktyFromPkey E.ossl pkey, kid := kid })
        (jwkThumbprint E f
          { k with pkey := some pkey, kty := ktyFromPkey E.ossl pkey, kid := kid })) := by
  refine ⟨?_, ?_, ?_, ?_, ?_, ?_⟩
  · intro J hJ
    exact keysetRep_of_returned hl hJ
  · intro F doc pool J h k hk
    obtain ⟨members, member, p, -, -, ho⟩ := mem_of_keyvalParse h hk
    refine ⟨ho.kid ▸ ho.usable.name, ho.alg, ?_⟩
    rw [ho.kty]
    exact ktyFromPkey_ne_oct _ _
  · intro F doc entries _
    exact staysWithin_of_le _ _ (zipIdx_le_capacity entries)
  · intro F doc members _
    exact staysWithin_of_le _ _ (zipIdx_le_length members)
  · intro f kty jwk k hkty h
    exact soundTwin_jwkThumbprint (parseKty_ok hkty h).loaded.pkey_ne
  · intro slot pkey k kid _
    exact soundTwin_jwkThumbprint fun _ => by simp

/-- The keyset of the document with a gap, whose last slot is left over. -/
theorem keyset_representation_edGap : KeysetRep (edFacts [edGap]).env edGapKeys :=
  (keyset_representation (E := (edFacts [edGap]).env) (edFacts [edGap]).keyLaws).1 _
    (.inl ⟨noParseFaults, edGap.1, ⟨⟩, edGap_parsed⟩)

end NxeJwx
