/-
# Issuing a token

The issuing half of `nxe_jwx_jws.c`.  `encodePrepare` is `nxe_jwx_encode` up to the point where
a key is loaded: it checks, builds the header and arrives at the signing input.  `encodeFinish`
is the rest: it signs and assembles the token in the caller's string.

A run is recorded with what the caller sees (`rc` and the string `out`, which had contents of
its own before the call), where it stopped, and what became of the private key handle.  Every
step that can fail for want of memory is an `EncodeStep`.
-/
import NxeJwx.Verify
import NxeJwx.Thumbprint

namespace NxeJwx

variable {PKey : Type}

/-- The steps of `nxe_jwx_encode` that can fail for want of memory. -/
inductive EncodeStep where
  | claimsJson
  | kidNode
  | kidText
  | header
  | headerB64
  | payloadB64
  | signingInput
  | bio
  | signContext
  | sigBuf
  | rawBuf
  | macBuf
  | sigB64
  | out
  deriving DecidableEq, Repr

/-- Which of these steps fail. -/
abbrev EncodeFaults := EncodeStep → Bool

/-- No step fails. -/
def noEncodeFaults : EncodeFaults := fun _ => false

/-! ## 1. Signing -/

/-- `nxe_jwx_ecdsa_der_to_raw`, with the fault of its buffer. -/
def ecdsaDerToRaw (O : Ossl PKey) (fault : Bool) (der : Bytes) (coordLen : Nat) :
    Option Bytes :=
  match O.d2iEcdsaSig der with
  | none => none
  | some (r, s) =>
    if fault then none
    -- `BN_bn2binpad` fails when the number does not fit
    else if BigEndian.byteLength r > coordLen ∨ BigEndian.byteLength s > coordLen then none
    else some (BigEndian.toBytes coordLen r ++ BigEndian.toBytes coordLen s)

/-- `nxe_jwx_evp_sign`. -/
def evpSign (O : Ossl PKey) (f : EncodeFaults) (pkey : PKey) (digest : Option Digest)
    (signingInput : Bytes) (pss : Bool) : Option Bytes :=
  if !digest.all O.digestByName then none
  else if f .signContext then none
  else
    match O.digestSignInit pkey digest with
    | none => none
    | some fresh =>
      match (if pss then pssParams O pkey digest fresh else some fresh) with
      | none => none
      | some c =>
        match O.digestSign pkey digest c signingInput with
        | none => none
        | some sig => if f .sigBuf then none else some sig

/-- `nxe_jwx_hmac_sign`. -/
def hmacSign (O : Ossl PKey) (f : EncodeFaults) (secret : Bytes) (digest : Option Digest)
    (signingInput : Bytes) : Option Bytes :=
  match digest with
  | none => none
  | some md =>
    if !O.digestByName md then none
    else
      match O.hmac md secret signingInput with
      | none => none
      | some mac => if f .macBuf then none else some mac

/-- `nxe_jwx_load_pem_privkey`, with the fault of its BIO. -/
def loadPemPrivkey (O : Ossl PKey) (fault : Bool) (pem : Bytes) : Option PKey :=
  if fault then none else O.pemReadPrivateKey pem

/-- `nxe_jwx_privkey_compatible`. -/
def privkeyCompatible (O : Ossl PKey) (pkey : PKey) (alg : Alg) : Bool :=
  match alg.family with
  | .rsa => O.baseId pkey == .rsa || O.baseId pkey == .rsaPss
  | .rsaPss => O.baseId pkey == .rsa || O.baseId pkey == .rsaPss
  | .ecdsa =>
    if O.baseId pkey ≠ .ec then false
    else
      match alg.ecCurve with
      | none => false
      | some curve => ecCurveMatches O (some pkey) curve
  | .eddsa => O.baseId pkey == .ed25519 || O.baseId pkey == .ed448
  | .hmac => false

/-- What the switch over families leaves behind: the handle it loaded, and the raw signature
unless it failed. -/
structure Signed (PKey : Type) where
  pkey : Option PKey
  sig : Option Bytes

/-- A private key is loaded and checked before it signs. -/
def signWithPrivkey (E : Env PKey) (f : EncodeFaults) (a : Alg) (key : Bytes)
    (sign : PKey → Option Bytes) : Signed PKey :=
  match loadPemPrivkey E.ossl (f .bio) key with
  | none => ⟨none, none⟩
  | some pkey =>
    if !privkeyCompatible E.ossl pkey a then ⟨some pkey, none⟩ else ⟨some pkey, sign pkey⟩

/-- The switch of `nxe_jwx_encode`. -/
def signRaw (E : Env PKey) (f : EncodeFaults) (a : Alg) (key signingInput : Bytes) :
    Signed PKey :=
  match a.family with
  | .hmac =>
    if E.haveHmac then ⟨none, hmacSign E.ossl f key a.digest signingInput⟩ else ⟨none, none⟩
  | .ecdsa =>
    signWithPrivkey E f a key fun pkey =>
      match evpSign E.ossl f pkey a.digest signingInput false with
      | none => none
      | some der => ecdsaDerToRaw E.ossl (f .rawBuf) der a.ecCoordLen
  | .rsa => signWithPrivkey E f a key fun pkey => evpSign E.ossl f pkey a.digest signingInput false
  | .rsaPss =>
    signWithPrivkey E f a key fun pkey => evpSign E.ossl f pkey a.digest signingInput true
  | .eddsa =>
    signWithPrivkey E f a key fun pkey => evpSign E.ossl f pkey a.digest signingInput false

/-! ## 2. The header -/

/-- `nxe_jwx_validate_claims_object`, with the fault of the parser. -/
def validateClaimsObject (E : Env PKey) (fault : Bool) (claims : Bytes) : Bool :=
  match (if fault then none else E.json.parseUntrusted claims) with
  | none => false
  | some json => json.isObject

/-- The kid as `nxe_jwx_build_header` splices it in: nothing for a kid that is missing or empty,
`none` when it cannot be serialised. -/
def kidMember (E : Env PKey) (f : EncodeFaults) (kid : Option Bytes) : Option Bytes :=
  match kid with
  | none => some []
  | some kid =>
    if kid.length > 0 then
      match (if f .kidNode || f .kidText then none else E.json.stringifyString kid) with
      | none => none
      | some quoted => some (ascii ",\"kid\":" ++ quoted)
    else some []

/-- `nxe_jwx_build_header`. -/
def buildHeader (E : Env PKey) (f : EncodeFaults) (algName : Bytes) (kid : Option Bytes) :
    Option Bytes :=
  match kidMember E f kid with
  | none => none
  | some member =>
    if f .header then none
    else
      some (ascii "\x7b\"alg\":\"" ++ algName ++ ascii "\",\"typ\":\"JWT\"" ++ member ++
        ascii "\x7d")

/-! ## 3. The token -/

/-- Where a run of `nxe_jwx_encode` stopped. -/
inductive EncodeStop where
  | arguments
  | claimsSize
  | algNone
  | algUnsupported
  | claimsJson
  | header
  | headerSize
  | signature
  | tokenSize
  | memory
  deriving DecidableEq, Repr

/-- `nxe_jwx_encode` up to the signing input. -/
def encodePrepare (E : Env PKey) (f : EncodeFaults) (alg : Bytes) (kid : Option Bytes)
    (claims : Bytes) : Except EncodeStop (Alg × Bytes) :=
  if claims.length > maxJwtSize then .error .claimsSize
  else if isName alg (ascii "none") then .error .algNone
  else
    match lookupAlg E.haveHmac alg with
    | none => .error .algUnsupported
    | some a =>
      if !validateClaimsObject E (f .claimsJson) claims then .error .claimsJson
      else
        match buildHeader E f a.name kid with
        | none => .error .header
        | some headerJson =>
          match encodeB64url E (f .headerB64) headerJson,
              encodeB64url E (f .payloadB64) claims with
          | some headerB64, some payloadB64 =>
            if headerB64.length > maxJwtHeader then .error .headerSize
            else if f .signingInput then .error .memory
            else .ok (a, headerB64 ++ dot :: payloadB64)
          | _, _ => .error .memory

/-- The caller's `ngx_str_t`.  A buffer holds more than the `len` bytes of the string when it is
NUL-terminated. -/
structure OutStr where
  len : Nat
  data : Option Bytes
  deriving DecidableEq, Repr

/-- What a run of `nxe_jwx_encode` leaves behind.  `loaded` is the private key handle that was
loaded and `freed` the one that was freed. -/
structure EncodeRun (PKey : Type) where
  rc : Rc
  out : Option OutStr
  stop : Option EncodeStop
  loaded : Option PKey
  freed : Option PKey

/-- A failure after the argument check: the string is cleared and the handle freed. -/
def EncodeRun.fail (stop : EncodeStop) (pkey : Option PKey) : EncodeRun PKey :=
  ⟨.error, some ⟨0, none⟩, some stop, pkey, pkey⟩

/-- `nxe_jwx_encode` from the signing input on. -/
def encodeFinish (E : Env PKey) (f : EncodeFaults) (a : Alg) (key signingInput : Bytes) :
    EncodeRun PKey :=
  let signed := signRaw E f a key signingInput
  match signed.sig with
  | none => .fail .signature signed.pkey
  | some sigRaw =>
    match encodeB64url E (f .sigB64) sigRaw with
    | none => .fail .memory signed.pkey
    | some sigB64 =>
      let len := signingInput.length + 1 + sigB64.length
      if len > maxJwtSize then .fail .tokenSize signed.pkey
      else if f .out then .fail .memory signed.pkey
      else
        ⟨.ok, some ⟨len, some (signingInput ++ dot :: sigB64 ++ [0])⟩, none, signed.pkey,
          signed.pkey⟩

/-- `nxe_jwx_encode`. -/
def encode (E : Env PKey) (f : EncodeFaults) (pool : Option Pool)
    (alg kid claims key : Option Bytes) (out : Option OutStr) : EncodeRun PKey :=
  match pool, alg, claims, key, out with
  | some _, some alg, some claims, some key, some out =>
    if alg.length = 0 ∨ claims.length = 0 ∨ key.length = 0 then
      ⟨.error, some out, some .arguments, none, none⟩
    else
      match encodePrepare E f alg kid claims with
      | .error stop => .fail stop none
      | .ok (a, signingInput) => encodeFinish E f a key signingInput
  | _, _, _, _, out => ⟨.error, out, some .arguments, none, none⟩

/-! ## 4. What a run does -/

variable {E : Env PKey} {f : EncodeFaults} {alg claims : Bytes} {kid : Option Bytes}

/-- The token with a given header text, claims and raw signature. -/
def assemble (E : Env PKey) (header claims sig : Bytes) : Bytes :=
  Separator.three dot (E.b64.encode header) (E.b64.encode claims) (E.b64.encode sig)

/-- What the first half establishes: `header` is the header text for the row `a` of `alg`. -/
structure Prepared (E : Env PKey) (f : EncodeFaults) (alg : Bytes) (kid : Option Bytes)
    (claims : Bytes) (a : Alg) (header : Bytes) : Prop where
  row : lookupAlg E.haveHmac alg = some a
  json : ∃ v, E.json.parseUntrusted claims = some v ∧ v.isObject = true
  built : buildHeader E f a.name kid = some header
  size : (E.b64.encode header).length ≤ maxJwtHeader

/-- What the first half says, for each of its results. -/
def PrepareSpec (E : Env PKey) (f : EncodeFaults) (alg : Bytes) (kid : Option Bytes)
    (claims : Bytes) : Except EncodeStop (Alg × Bytes) → Prop
  | .ok (a, signingInput) => ∃ header, Prepared E f alg kid claims a header ∧
      signingInput = E.b64.encode header ++ dot :: E.b64.encode claims
  | .error .claimsSize => claims.length > maxJwtSize
  | .error .headerSize => ∃ a header, lookupAlg E.haveHmac alg = some a ∧
      buildHeader E f a.name kid = some header ∧ (E.b64.encode header).length > maxJwtHeader
  | .error stop => stop ≠ .tokenSize

theorem validateClaimsObject_eq_true {fault : Bool}
    (h : validateClaimsObject E fault claims = true) :
    ∃ v, E.json.parseUntrusted claims = some v ∧ v.isObject = true := by
  unfold validateClaimsObject at h
  split at h
  · exact absurd h (by simp)
  next v hv =>
  split at hv
  · exact absurd hv (by simp)
  · exact ⟨v, hv, h⟩

theorem encodePrepare_spec (E : Env PKey) (f : EncodeFaults) (alg : Bytes) (kid : Option Bytes)
    (claims : Bytes) : PrepareSpec E f alg kid claims (encodePrepare E f alg kid claims) := by
  unfold encodePrepare
  split
  next hsize => exact hsize
  split
  · exact EncodeStop.noConfusion
  split
  · exact EncodeStop.noConfusion
  next a ha =>
  split
  · exact EncodeStop.noConfusion
  next hclaims =>
  split
  · exact EncodeStop.noConfusion
  next header hheader =>
  split
  next headerB64 payloadB64 hh hp =>
    obtain rfl := encodeB64url_eq_some hh
    obtain rfl := encodeB64url_eq_some hp
    split
    next hlen => exact ⟨a, header, ha, hheader, hlen⟩
    next hlen =>
    split
    · exact EncodeStop.noConfusion
    · refine ⟨header, ⟨ha, ?_, hheader, Nat.le_of_not_lt hlen⟩, rfl⟩
      exact validateClaimsObject_eq_true (by simpa using hclaims)
  · exact EncodeStop.noConfusion

/-- The second half hands out the token of the signature it made, or fails. -/
theorem encodeFinish_cases (a : Alg) (key signingInput : Bytes) :
    (∃ sig, (signRaw E f a key signingInput).sig = some sig ∧
      (signingInput ++ dot :: E.b64.encode sig).length ≤ maxJwtSize ∧
      encodeFinish E f a key signingInput =
        ⟨.ok, some ⟨(signingInput ++ dot :: E.b64.encode sig).length,
          some (signingInput ++ dot :: E.b64.encode sig ++ [0])⟩, none,
          (signRaw E f a key signingInput).pkey, (signRaw E f a key signingInput).pkey⟩) ∨
    ∃ stop, encodeFinish E f a key signingInput =
        .fail stop (signRaw E f a key signingInput).pkey ∧
      stop ≠ .claimsSize ∧ stop ≠ .headerSize ∧
      (stop = .tokenSize → ∃ sig, (signRaw E f a key signingInput).sig = some sig ∧
        (signingInput ++ dot :: E.b64.encode sig).length > maxJwtSize) := by
  have hlen : ∀ b : Bytes,
      (signingInput ++ dot :: b).length = signingInput.length + 1 + b.length := by
    intro b
    simp only [List.length_append, List.length_cons]
    omega
  simp only [encodeFinish, hlen]
  split
  next hsig => exact .inr ⟨.signature, rfl, by decide, by decide, by simp⟩
  next sig hsig =>
  split
  next hb64 => exact .inr ⟨.memory, rfl, by decide, by decide, by simp⟩
  next sigB64 hb64 =>
  obtain rfl := encodeB64url_eq_some hb64
  split
  next hsize => exact .inr ⟨.tokenSize, rfl, by decide, by decide, fun _ => ⟨sig, hsig, hsize⟩⟩
  next hsize =>
  split
  · exact .inr ⟨.memory, rfl, by decide, by decide, by simp⟩
  · exact .inl ⟨sig, hsig, Nat.le_of_not_lt hsize, rfl⟩

/-! ## 5. What was signed -/

/-- The signature context that `nxe_jwx_evp_sign` signs under. -/
def signContext (O : Ossl PKey) (pkey : PKey) (digest : Option Digest) (pss : Bool) :
    Option SigParams :=
  match O.digestSignInit pkey digest with
  | none => none
  | some fresh => if pss then pssParams O pkey digest fresh else some fresh

/-- A signature was made under the context of the key. -/
theorem evpSign_eq_some {O : Ossl PKey} {p : PKey} {digest : Option Digest}
    {msg sig : Bytes} {pss : Bool} (h : evpSign O f p digest msg pss = some sig) :
    digest.all O.digestByName = true ∧
      ∃ c, signContext O p digest pss = some c ∧ O.digestSign p digest c msg = some sig := by
  unfold evpSign at h
  split at h
  · exact absurd h (by simp)
  next hmd =>
  split at h
  · exact absurd h (by simp)
  split at h
  · exact absurd h (by simp)
  next fresh hfresh =>
  split at h
  · exact absurd h (by simp)
  next c hc =>
  split at h
  · exact absurd h (by simp)
  next sig' hsig =>
  split at h
  · exact absurd h (by simp)
  obtain rfl := Option.some.inj h
  exact ⟨by simpa using hmd, c, by simp only [signContext, hfresh, hc], hsig⟩

/-- A private key that signs was loaded and passed the check of its type. -/
theorem signWithPrivkey_sig {a : Alg} {key sig : Bytes}
    {sign : PKey → Option Bytes} (h : (signWithPrivkey E f a key sign).sig = some sig) :
    ∃ priv, E.ossl.pemReadPrivateKey key = some priv ∧
      privkeyCompatible E.ossl priv a = true ∧ sign priv = some sig := by
  unfold signWithPrivkey at h
  split at h
  · exact absurd h (by simp)
  next priv hload =>
  have hread : E.ossl.pemReadPrivateKey key = some priv := by
    unfold loadPemPrivkey at hload
    split at hload
    · exact absurd hload (by simp)
    · exact hload
  split at h
  · exact absurd h (by simp)
  next hc => exact ⟨priv, hread, by simpa using hc, h⟩

/-- A MAC that is handed out is the one of the secret. -/
theorem hmacSign_eq_some {O : Ossl PKey} {secret : Bytes} {digest : Option Digest}
    {msg mac : Bytes} (h : hmacSign O f secret digest msg = some mac) :
    ∃ md, digest = some md ∧ O.digestByName md = true ∧ O.hmac md secret msg = some mac := by
  unfold hmacSign at h
  split at h
  · exact absurd h (by simp)
  next md =>
  split at h
  · exact absurd h (by simp)
  next hname =>
  split at h
  · exact absurd h (by simp)
  next mac' hmac =>
  split at h
  · exact absurd h (by simp)
  obtain rfl := Option.some.inj h
  exact ⟨md, rfl, by simpa using hname, hmac⟩

/-- The fixed-width form is the same when nothing fails. -/
theorem ecdsaDerToRaw_noFault {O : Ossl PKey} {fault : Bool} {der raw : Bytes} {coordLen : Nat}
    (h : ecdsaDerToRaw O fault der coordLen = some raw) :
    ecdsaDerToRaw O false der coordLen = some raw := by
  cases fault with
  | false => exact h
  | true =>
    unfold ecdsaDerToRaw at h
    split at h <;> exact absurd h (by simp)

/-- What OpenSSL has answered when a signature was issued.  For an HMAC the signature is the MAC
of the message under the secret.  Else it is what `EVP_DigestSign` makes of the message, an ECDSA
signature at fixed width, under a private key of the algorithm's type, with the digest of the
algorithm and a context that has the parameters of PSS for the PS* algorithms only. -/
inductive Signs (E : Env PKey) (a : Alg) (key msg sig : Bytes) : Prop
  | mac {md : Digest} (family : a.family = .hmac) (build : E.haveHmac = true)
      (digest : a.digest = some md) (available : E.ossl.digestByName md = true)
      (mac : E.ossl.hmac md key msg = some sig)
  | signature {p : PKey} {c : SigParams} {octets : Bytes} (family : a.family ≠ .hmac)
      (read : E.ossl.pemReadPrivateKey key = some p)
      (compatible : privkeyCompatible E.ossl p a = true)
      (available : a.digest.all E.ossl.digestByName = true)
      (context : signContext E.ossl p a.digest (a.family == .rsaPss) = some c)
      (signed : E.ossl.digestSign p a.digest c msg = some octets)
      (form : if a.family = .ecdsa then ecdsaDerToRaw E.ossl false octets a.ecCoordLen = some sig
        else octets = sig)

/-- A raw signature was made so. -/
theorem signs_of_signRaw {a : Alg} {key msg sig : Bytes}
    (h : (signRaw E f a key msg).sig = some sig) : Signs E a key msg sig := by
  -- the three families that hand out what OpenSSL signed
  have evp : ∀ pss, a.family ≠ .hmac → a.family ≠ .ecdsa → (a.family == .rsaPss) = pss →
      (signWithPrivkey E f a key fun p => evpSign E.ossl f p a.digest msg pss).sig = some sig →
        Signs E a key msg sig := by
    intro pss hmac hec hpss hsign
    obtain ⟨p, hread, hcompat, hsig⟩ := signWithPrivkey_sig hsign
    obtain ⟨hmd, c, hc, hdigest⟩ := evpSign_eq_some hsig
    exact .signature hmac hread hcompat hmd (by rw [hpss, hc]) hdigest (by rw [if_neg hec])
  cases hf : a.family with
  | rsa =>
    simp only [signRaw, hf] at h
    exact evp false (by simp [hf]) (by simp [hf]) (by rw [hf]; rfl) h
  | rsaPss =>
    simp only [signRaw, hf] at h
    exact evp true (by simp [hf]) (by simp [hf]) (by rw [hf]; rfl) h
  | eddsa =>
    simp only [signRaw, hf] at h
    exact evp false (by simp [hf]) (by simp [hf]) (by rw [hf]; rfl) h
  | ecdsa =>
    simp only [signRaw, hf] at h
    obtain ⟨p, hread, hcompat, hsig⟩ := signWithPrivkey_sig h
    split at hsig
    · exact absurd hsig (by simp)
    next der hder =>
    obtain ⟨hmd, c, hc, hdigest⟩ := evpSign_eq_some hder
    refine .signature (by simp [hf]) hread hcompat hmd (by rw [hf]; exact hc) hdigest ?_
    rw [if_pos hf]
    exact ecdsaDerToRaw_noFault hsig
  | hmac =>
    simp only [signRaw, hf] at h
    split at h
    next hbuild =>
      obtain ⟨md, hmd, hname, hmac⟩ := hmacSign_eq_some h
      exact .mac hf hbuild hmd hname hmac
    · exact absurd h (by simp)

end NxeJwx
