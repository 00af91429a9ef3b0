/-
# The objects of an issue

`nxe_jwx_encode` with the objects it makes: the JSON values of the claims and of the kid, the BIO
of the key, the key itself, the digest context, the decoded ECDSA signature, and the MAC on the
stack, which counts as made when `HMAC` has filled it and as freed when it is cleansed.

The helpers free what they make on each of their ways out, one by a label, one before it hands the
key over to `nxe_jwx_encode`, whose own label frees the key.  A plain `return` skips that label, and
stands only where no key is loaded.  So whichever steps fail, each object is freed exactly once, and
the answer is the one of `encode` (`issue_objects`).
-/
import NxeJwx.Lib.Objects
import NxeJwx.Encode

namespace NxeJwx

open Ledger Objects SharedTail

variable {PKey : Type}

/-! ## 1. The code -/

/-- `nxe_jwx_ecdsa_der_to_raw`, before its label. -/
def ecdsaDerToRawBody (O : Ossl PKey) (fault : Bool) (der : Bytes) (coordLen : Nat) :
    Code PUnit (Option Bytes) PUnit :=
  match O.d2iEcdsaSig der with
  | none => .ret none
  | some (r, s) => do
    new ⟨⟩ false
    jumpIf fault none
    jumpIf (decide (BigEndian.byteLength r > coordLen ∨ BigEndian.byteLength s > coordLen)) none
    -- `rc = NGX_OK`, and into the label
    .jump (some (BigEndian.toBytes coordLen r ++ BigEndian.toBytes coordLen s))

/-- `nxe_jwx_ecdsa_der_to_raw`. -/
def ecdsaDerToRawObjects (O : Ossl PKey) (fault : Bool) (der : Bytes) (coordLen : Nat) :
    Books → Done (Option Bytes) :=
  withLabel [⟨⟩] none none id Option.join (ecdsaDerToRawBody O fault der coordLen)

/-- `nxe_jwx_evp_sign`, before its label. -/
def evpSignBody (O : Ossl PKey) (f : EncodeFaults) (pkey : PKey) (digest : Option Digest)
    (signingInput : Bytes) (pss : Bool) : Code PUnit (Option Bytes) PUnit :=
  if !digest.all O.digestByName then .ret none
  else do
    new ⟨⟩ (f .signContext)
    orRet ⟨⟩ none
    match O.digestSignInit pkey digest with
    | none => .jump none
    | some fresh =>
      match (if pss then pssParams O pkey digest fresh else some fresh) with
      | none => .jump none
      | some c =>
        match O.digestSign pkey digest c signingInput with
        | none => .jump none
        | some sig => do
          jumpIf (f .sigBuf) none
          .jump (some sig)

/-- `nxe_jwx_evp_sign`. -/
def evpSignObjects (O : Ossl PKey) (f : EncodeFaults) (pkey : PKey) (digest : Option Digest)
    (signingInput : Bytes) (pss : Bool) : Books → Done (Option Bytes) :=
  withLabel [⟨⟩] none none id Option.join (evpSignBody O f pkey digest signingInput pss)

/-- The code of `nxe_jwx_hmac_sign`. -/
def hmacSignBody (O : Ossl PKey) (f : EncodeFaults) (secret : Bytes) (digest : Option Digest)
    (signingInput : Bytes) : Code PUnit (Option Bytes) PUnit :=
  match digest with
  | none => .ret none
  | some md =>
    if !O.digestByName md then .ret none
    else
      match O.hmac md secret signingInput with
      | none => .ret none
      | some mac => do
        new ⟨⟩ false
        if f .macBuf then
          free ⟨⟩
          .ret none
        else
          free ⟨⟩
          .ret (some mac)

/-- `nxe_jwx_hmac_sign`. -/
def hmacSignObjects (O : Ossl PKey) (f : EncodeFaults) (secret : Bytes) (digest : Option Digest)
    (signingInput : Bytes) : Books → Done (Option Bytes) :=
  withLabel [] none none id Option.join (hmacSignBody O f secret digest signingInput)

/-- The pointers of the two functions that load a PEM. -/
inductive PemVar where
  | bio
  | pkey
  deriving DecidableEq, Repr

/-- The code of both, with what OpenSSL reads. -/
def loadPemBody (fault : Bool) (pkey : Option PKey) : Code PemVar (Option PKey) PUnit := do
  new .bio fault
  orRet .bio none
  new .pkey pkey.isNone
  free .bio
  .ret pkey

/-- Either function: the key is the caller's. -/
def loadPemObjects (fault : Bool) (pkey : Option PKey) : Books → Done (Option PKey) :=
  withLabel [] none (some .pkey) id Option.join (loadPemBody fault pkey)

/-- `nxe_jwx_load_pem_privkey`. -/
def loadPemPrivkeyObjects (O : Ossl PKey) (fault : Bool) (pem : Bytes) :
    Books → Done (Option PKey) := loadPemObjects fault (O.pemReadPrivateKey pem)

/-- The code of `nxe_jwx_validate_claims_object`. -/
def validateClaimsObjectBody (E : Env PKey) (fault : Bool) (claims : Bytes) :
    Code PUnit Bool PUnit :=
  match (if fault then none else E.json.parseUntrusted claims) with
  | none => .ret false
  | some json => do
    new ⟨⟩ false
    if !json.isObject then
      free ⟨⟩
      .ret false
    else
      free ⟨⟩
      .ret true

/-- `nxe_jwx_validate_claims_object`. -/
def validateClaimsObjectObjects (E : Env PKey) (fault : Bool) (claims : Bytes) :
    Books → Done Bool :=
  withLabel [] none none id (·.getD false) (validateClaimsObjectBody E fault claims)

/-- The kid of `nxe_jwx_build_header`, as it is spliced in. -/
def kidMemberBody (E : Env PKey) (f : EncodeFaults) (kid : Option Bytes) :
    Code PUnit (Option Bytes) Bytes :=
  match kid with
  | none => pure []
  | some kid =>
    if kid.length > 0 then do
      new ⟨⟩ (f .kidNode)
      orRet ⟨⟩ none
      let quoted := if f .kidText then none else E.json.stringifyString kid
      free ⟨⟩
      match quoted with
      | none => .ret none
      | some quoted => pure (ascii ",\"kid\":" ++ quoted)
    else pure []

/-- The code of `nxe_jwx_build_header`. -/
def buildHeaderBody (E : Env PKey) (f : EncodeFaults) (algName : Bytes) (kid : Option Bytes) :
    Code PUnit (Option Bytes) PUnit := do
  let member ← kidMemberBody E f kid
  if f .header then .ret none
  else
    .ret (some (ascii "\x7b\"alg\":\"" ++ algName ++ ascii "\",\"typ\":\"JWT\"" ++ member ++
      ascii "\x7d"))

/-- `nxe_jwx_build_header`. -/
def buildHeaderObjects (E : Env PKey) (f : EncodeFaults) (algName : Bytes) (kid : Option Bytes) :
    Books → Done (Option Bytes) :=
  withLabel [] none none id Option.join (buildHeaderBody E f algName kid)

/-- How `nxe_jwx_encode` ends: where it stopped, or with the string it hands out. -/
abbrev EncodeEnd := Except EncodeStop OutStr

/-- A statement of `nxe_jwx_encode`, whose only pointer is the key. -/
abbrev EncodeCode := Code PUnit EncodeEnd

/-- A signature that could not be made leads to the label. -/
def orSignature (sig : Option Bytes) : EncodeCode Bytes :=
  match sig with
  | none => .jump (.error .signature)
  | some sig => pure sig

/-- A private key is loaded and checked before it signs. -/
def signWithPrivkeyBody (E : Env PKey) (f : EncodeFaults) (a : Alg) (key : Bytes)
    (sign : PKey → EncodeCode Bytes) : EncodeCode Bytes := do
  match ← call ⟨⟩ (loadPemPrivkeyObjects E.ossl (f .bio) key) with
  | none => .jump (.error .signature)
  | some pkey =>
    if !privkeyCompatible E.ossl pkey a then .jump (.error .signature) else sign pkey

/-- The signing of the algorithms that need no conversion. -/
def evpSignWith (E : Env PKey) (f : EncodeFaults) (a : Alg) (signingInput : Bytes) (pss : Bool)
    (pkey : PKey) : EncodeCode Bytes := do
  let sig ← visit (evpSignObjects E.ossl f pkey a.digest signingInput pss)
  orSignature sig

/-- The signing of ECDSA. -/
def ecdsaSignWith (E : Env PKey) (f : EncodeFaults) (a : Alg) (signingInput : Bytes)
    (pkey : PKey) : EncodeCode Bytes := do
  let der ← evpSignWith E f a signingInput false pkey
  let sig ← visit (ecdsaDerToRawObjects E.ossl (f .rawBuf) der a.ecCoordLen)
  orSignature sig

/-- The switch of `nxe_jwx_encode`. -/
def signRawBody (E : Env PKey) (f : EncodeFaults) (a : Alg) (key signingInput : Bytes) :
    EncodeCode Bytes :=
  match a.family with
  | .hmac =>
    if E.haveHmac then do
      let sig ← visit (hmacSignObjects E.ossl f key a.digest signingInput)
      orSignature sig
    else .jump (.error .signature)
  | .ecdsa => signWithPrivkeyBody E f a key (ecdsaSignWith E f a signingInput)
  | .rsa => signWithPrivkeyBody E f a key (evpSignWith E f a signingInput false)
  | .rsaPss => signWithPrivkeyBody E f a key (evpSignWith E f a signingInput true)
  | .eddsa => signWithPrivkeyBody E f a key (evpSignWith E f a signingInput false)

/-- `nxe_jwx_encode` up to the signing input. -/
def encodePrepareBody (E : Env PKey) (f : EncodeFaults) (alg : Bytes) (kid : Option Bytes)
    (claims : Bytes) : EncodeCode (Alg × Bytes) :=
  if claims.length > maxJwtSize then .ret (.error .claimsSize)
  else if isName alg (ascii "none") then .ret (.error .algNone)
  else
    match lookupAlg E.haveHmac alg with
    | none => .ret (.error .algUnsupported)
    | some a => do
      let valid ← visit (validateClaimsObjectObjects E (f .claimsJson) claims)
      if !valid then .ret (.error .claimsJson)
      else
        match ← visit (buildHeaderObjects E f a.name kid) with
        | none => .ret (.error .header)
        | some headerJson =>
          match encodeB64url E (f .headerB64) headerJson,
              encodeB64url E (f .payloadB64) claims with
          | some headerB64, some payloadB64 =>
            if headerB64.length > maxJwtHeader then .ret (.error .headerSize)
            else if f .signingInput then .ret (.error .memory)
            else pure (a, headerB64 ++ dot :: payloadB64)
          | _, _ => .ret (.error .memory)

/-- `nxe_jwx_encode` after the switch. -/
def encodeTokenBody (E : Env PKey) (f : EncodeFaults) (signingInput sigRaw : Bytes) :
    EncodeCode PUnit :=
  match encodeB64url E (f .sigB64) sigRaw with
  | none => .jump (.error .memory)
  | some sigB64 =>
    let len := signingInput.length + 1 + sigB64.length
    if len > maxJwtSize then .jump (.error .tokenSize)
    else if f .out then .jump (.error .memory)
    -- `rc = NGX_OK`, and into the label
    else .jump (.ok ⟨len, some (signingInput ++ dot :: sigB64 ++ [0])⟩)

/-- What follows the argument check. -/
def encodeObjectsBody (E : Env PKey) (f : EncodeFaults) (alg : Bytes) (kid : Option Bytes)
    (claims key : Bytes) : EncodeCode PUnit := do
  let (a, signingInput) ← encodePrepareBody E f alg kid claims
  let sigRaw ← signRawBody E f a key signingInput
  encodeTokenBody E f signingInput sigRaw

/-- What the caller sees of a call. -/
structure IssueAnswer where
  rc : Rc
  out : Option OutStr
  stop : Option EncodeStop
  deriving DecidableEq, Repr

/-- What the caller sees of a run. -/
def EncodeRun.answer (run : EncodeRun PKey) : IssueAnswer := ⟨run.rc, run.out, run.stop⟩

/-- A failure clears the string. -/
def EncodeEnd.answer : EncodeEnd → IssueAnswer
  | .ok out => ⟨.ok, some out, none⟩
  | .error stop => ⟨.error, some ⟨0, none⟩, some stop⟩

/-- `nxe_jwx_encode`; its label frees the key. -/
def encodeObjects (E : Env PKey) (f : EncodeFaults) (pool : Option Pool)
    (alg kid claims key : Option Bytes) (out : Option OutStr) (B : Books) : Done IssueAnswer :=
  match pool, alg, claims, key, out with
  | some _, some alg, some claims, some key, some out =>
    if alg.length = 0 ∨ claims.length = 0 ∨ key.length = 0 then
      ⟨⟨.error, some out, some .arguments⟩, none, B⟩
    else
      withLabel [⟨⟩] none none EncodeEnd.answer (fun e => (e.getD (.error .memory)).answer)
        (encodeObjectsBody E f alg kid claims key) B
  | _, _, _, _, out => ⟨⟨.error, out, some .arguments⟩, none, B⟩

/-! ## 2. The books balance -/

variable {O : Ossl PKey} {f : EncodeFaults} {E : Env PKey}

/-- The one pointer of a function may be freed at its label. -/
theorem held_unit {outer : List Nat} {vs ys : List PUnit} {s : Frame PUnit}
    (h : At outer vs [] ys s) : Held outer ([⟨⟩] ++ (none : Option PUnit).toList) s :=
  h.held (fun _ _ => List.mem_cons_self) fun _ hx => absurd hx List.not_mem_nil

theorem balanced_ecdsaDerToRaw (fault : Bool) (der : Bytes) (coordLen : Nat) :
    Balanced (ecdsaDerToRawObjects O fault der coordLen) := by
  refine balanced_withLabel (by decide) fun outer => ?_
  unfold ecdsaDerToRawBody
  split
  · exact Triple.leave fun s h => h.returned
  refine Triple.bind (triple_new (by decide) (by decide)) fun _ => ?_
  refine Triple.bind (triple_jumpIf fun s h => held_unit h) fun _ => ?_
  refine Triple.bind (triple_jumpIf fun s h => held_unit h) fun _ => ?_
  exact Triple.goto fun s h => held_unit h

theorem balanced_evpSign (pkey : PKey) (digest : Option Digest) (msg : Bytes) (pss : Bool) :
    Balanced (evpSignObjects O f pkey digest msg pss) := by
  refine balanced_withLabel (by decide) fun outer => ?_
  unfold evpSignBody
  split
  · exact Triple.leave fun s h => h.returned
  refine Triple.bind (triple_new (by decide) (by decide)) fun _ => ?_
  refine Triple.bind (triple_orRet fun s h hnull => ?_) fun _ => ?_
  · exact h.dropNull List.mem_cons_self hnull
  split
  · exact Triple.goto fun s h => held_unit h
  split
  · exact Triple.goto fun s h => held_unit h
  split
  · exact Triple.goto fun s h => held_unit h
  · refine Triple.bind (triple_jumpIf fun s h => held_unit h) fun _ => ?_
    exact Triple.goto fun s h => held_unit h

theorem balanced_hmacSign (secret : Bytes) (digest : Option Digest) (msg : Bytes) :
    Balanced (hmacSignObjects O f secret digest msg) := by
  refine balanced_withLabel (by decide) fun outer => ?_
  unfold hmacSignBody
  split
  · exact Triple.leave fun s h => h.returned
  split
  · exact Triple.leave fun s h => h.returned
  split
  · exact Triple.leave fun s h => h.returned
  refine Triple.bind (triple_new (by decide) (by decide)) fun _ => ?_
  split
  · exact triple_freeRet
  · exact triple_freeRet

/-- The BIO is freed when the key goes to the caller. -/
theorem hands_loadPem (fault : Bool) (pkey : Option PKey) :
    Hands NullWith (loadPemObjects fault pkey) := by
  refine hands_withLabel (by decide) fun outer => ?_
  unfold loadPemBody
  refine Triple.bind (triple_new (by decide) (by decide)) fun _ => ?_
  refine Triple.bind (triple_orRet fun s h hnull => ?_) fun _ => ?_
  · have hpkey : s.var .pkey = none := h.null .pkey (by decide) (by decide)
    have hsound := h.dropNull List.mem_cons_self hnull
    refine ⟨?_, fun _ => hpkey⟩
    show Sound s.books (nodesOf (s.var .pkey) ++ outer)
    rw [hpkey]
    exact hsound
  refine Triple.bind (triple_new_null (by decide) (by decide)) fun _ => ?_
  refine Triple.bind (triple_free_keeping (fun var => pkey.isNone = true → var PemVar.pkey = none)
    (by decide)) fun _ => ?_
  refine Triple.leave fun s h => ⟨h.1.handed (by decide) (by decide), fun hnone => ?_⟩
  obtain rfl : pkey = none := hnone
  exact h.2 rfl

theorem balanced_validateClaimsObject (fault : Bool) (claims : Bytes) :
    Balanced (validateClaimsObjectObjects E fault claims) := by
  refine balanced_withLabel (by decide) fun outer => ?_
  unfold validateClaimsObjectBody
  split
  · exact Triple.leave fun s h => h.returned
  refine Triple.bind (triple_new (by decide) (by decide)) fun _ => ?_
  split
  · exact triple_freeRet
  · exact triple_freeRet

theorem balanced_buildHeader (algName : Bytes) (kid : Option Bytes) :
    Balanced (buildHeaderObjects E f algName kid) := by
  refine balanced_withLabel (by decide) fun outer => ?_
  unfold buildHeaderBody
  -- the node of the kid is gone when the header is assembled
  refine Triple.bind (m := fun _ s => Sound s.books outer) ?_ fun member => ?_
  · unfold kidMemberBody
    split
    · exact Triple.pure fun s h => h.returned
    split
    · refine Triple.bind (triple_new (by decide) (by decide)) fun _ => ?_
      refine Triple.bind (triple_orRet fun s h hnull => ?_) fun _ => ?_
      · exact h.dropNull List.mem_cons_self hnull
      refine Triple.bind (triple_free (by decide)) fun _ => ?_
      split
      · exact Triple.leave fun s h => h.returned
      · exact Triple.pure fun s h => h.returned
    · exact Triple.pure fun s h => h.returned
  · split
    · exact Triple.leave fun s h => h
    · exact Triple.leave fun s h => h

section Encode

variable {outer : List Nat} {ret : EncodeEnd → Frame PUnit → Prop}

/-- Where the key may be loaded, the label frees it. -/
abbrev AtLabel (outer : List Nat) (s : Frame PUnit) : Prop :=
  Held outer ([PUnit.unit] ++ (none : Option PUnit).toList) s

theorem triple_orSignature {vs ys : List PUnit} (sig : Option Bytes) :
    Triple (At outer vs [] ys) (orSignature sig) (fun _ => At outer vs [] ys) ret
      fun _ => AtLabel outer := by
  unfold orSignature
  split
  · exact Triple.goto fun s h => held_unit h
  · exact Triple.pure fun s h => h

theorem triple_evpSignWith {vs ys : List PUnit} (a : Alg) (msg : Bytes) (pss : Bool)
    (pkey : PKey) :
    Triple (At outer vs [] ys) (evpSignWith E f a msg pss pkey) (fun _ => At outer vs [] ys) ret
      fun _ => AtLabel outer :=
  Triple.bind (triple_visit (balanced_evpSign ..) fun _ => handed_withLabel ..)
    fun sig => triple_orSignature sig

theorem triple_signWithPrivkey {sign : PKey → EncodeCode Bytes} (a : Alg) (key : Bytes)
    (hsign : ∀ pkey, Triple (At outer [PUnit.unit] [] []) (sign pkey)
      (fun _ => AtLabel outer) ret fun _ => AtLabel outer) :
    Triple (At outer [] [] []) (signWithPrivkeyBody E f a key sign) (fun _ => AtLabel outer) ret
      fun _ => AtLabel outer := by
  unfold signWithPrivkeyBody
  refine Triple.bind (triple_call (hands_loadPem ..).toBalanced (by decide) (by decide))
    fun pkey => ?_
  split
  · exact Triple.goto fun s h => held_unit h
  split
  · exact Triple.goto fun s h => held_unit h
  · exact hsign _

/-- The switch loads a key, and holds nothing else when it is through. -/
theorem triple_signRaw (a : Alg) (key msg : Bytes) :
    Triple (At outer [] [] []) (signRawBody E f a key msg) (fun _ => AtLabel outer) ret
      fun _ => AtLabel outer := by
  have hevp : ∀ pss pkey, Triple (At outer [PUnit.unit] [] []) (evpSignWith E f a msg pss pkey)
      (fun _ => AtLabel outer) ret fun _ => AtLabel outer := fun pss pkey =>
    (triple_evpSignWith a msg pss pkey).weaken (fun _ h => h) (fun _ _ h => held_unit h)
      fun _ _ h => h
  unfold signRawBody
  cases a.family with
  | hmac =>
    dsimp only
    split
    · refine Triple.bind (triple_visit (balanced_hmacSign ..) fun _ => handed_withLabel ..)
        fun sig => ?_
      exact (triple_orSignature sig).weaken (fun _ h => h) (fun _ _ h => held_unit h)
        fun _ _ h => h
    · exact Triple.goto fun s h => held_unit h
  | ecdsa =>
    refine triple_signWithPrivkey a key fun pkey => ?_
    refine Triple.bind (triple_evpSignWith a msg false pkey) fun der => ?_
    refine Triple.bind (triple_visit (balanced_ecdsaDerToRaw ..) fun _ => handed_withLabel ..)
      fun sig => ?_
    exact (triple_orSignature sig).weaken (fun _ h => h) (fun _ _ h => held_unit h)
      fun _ _ h => h
  | rsa | rsaPss | eddsa => exact triple_signWithPrivkey a key (hevp _)

/-- Up to the signing input there is no key, and a plain `return` leaves nothing behind. -/
theorem triple_encodePrepare (alg : Bytes) (kid : Option Bytes) (claims : Bytes)
    {jump : EncodeEnd → Frame PUnit → Prop} :
    Triple (At outer [] [] []) (encodePrepareBody E f alg kid claims)
      (fun _ => At outer [] [] []) (fun _ s => Sound s.books outer) jump := by
  unfold encodePrepareBody
  split
  · exact Triple.leave fun s h => h.returned
  split
  · exact Triple.leave fun s h => h.returned
  split
  · exact Triple.leave fun s h => h.returned
  refine Triple.bind (triple_visit (balanced_validateClaimsObject ..) fun _ =>
    handed_withLabel ..) fun valid => ?_
  split
  · exact Triple.leave fun s h => h.returned
  refine Triple.bind (triple_visit (balanced_buildHeader ..) fun _ => handed_withLabel ..)
    fun header => ?_
  split
  · exact Triple.leave fun s h => h.returned
  split
  · split
    · exact Triple.leave fun s h => h.returned
    split
    · exact Triple.leave fun s h => h.returned
    · exact Triple.pure fun s h => h
  · exact Triple.leave fun s h => h.returned

/-- Assembling the token makes no object. -/
theorem triple_encodeToken (msg sig : Bytes) {next : PUnit → Frame PUnit → Prop} :
    Triple (AtLabel outer) (encodeTokenBody E f msg sig) next ret fun _ => AtLabel outer := by
  unfold encodeTokenBody
  split
  · exact Triple.goto fun s h => h
  dsimp only
  split
  · exact Triple.goto fun s h => h
  split
  · exact Triple.goto fun s h => h
  · exact Triple.goto fun s h => h

end Encode

theorem balanced_encode (pool : Option Pool) (alg kid claims key : Option Bytes)
    (out : Option OutStr) : Balanced (encodeObjects E f pool alg kid claims key out) := by
  refine ⟨fun B ns hB => ?_⟩
  unfold encodeObjects
  split
  · split
    · exact hB
    · refine (balanced_withLabel (by decide) fun outer => ?_).keeps B ns hB
      refine Triple.bind (triple_encodePrepare _ _ _) fun p => ?_
      exact Triple.bind (triple_signRaw _ _ _) fun sig => triple_encodeToken _ sig
  · exact hB

theorem handed_encode (pool : Option Pool) (alg kid claims key : Option Bytes)
    (out : Option OutStr) (B : Books) :
    (encodeObjects E f pool alg kid claims key out B).handed = none := by
  unfold encodeObjects
  split
  · split
    · rfl
    · exact handed_withLabel ..
  · rfl

/-! ## 3. The answers -/

theorem val_ecdsaDerToRawObjects (fault : Bool) (der : Bytes) (coordLen : Nat) (B : Books) :
    (ecdsaDerToRawObjects O fault der coordLen B).val = ecdsaDerToRaw O fault der coordLen := by
  rw [ecdsaDerToRawObjects, val_withLabel]
  unfold ecdsaDerToRawBody ecdsaDerToRaw
  cases O.d2iEcdsaSig der with
  | none => rfl
  | some rs =>
    simp only [run_new, run_jumpIf, decide_eq_true_eq]
    split
    · rfl
    split <;> rfl

theorem val_evpSignObjects (pkey : PKey) (digest : Option Digest) (msg : Bytes) (pss : Bool)
    (B : Books) : (evpSignObjects O f pkey digest msg pss B).val =
      evpSign O f pkey digest msg pss := by
  rw [evpSignObjects, val_withLabel]
  unfold evpSignBody evpSign
  split
  · rfl
  rw [run_new, run_orRet, isNone_make_same]
  split
  · rfl
  cases O.digestSignInit pkey digest with
  | none => rfl
  | some fresh =>
    dsimp only
    cases (if pss then pssParams O pkey digest fresh else some fresh) with
    | none => rfl
    | some c =>
      dsimp only
      cases O.digestSign pkey digest c msg with
      | none => rfl
      | some sig =>
        dsimp only
        rw [run_jumpIf]
        split <;> rfl

theorem val_hmacSignObjects (secret : Bytes) (digest : Option Digest) (msg : Bytes)
    (B : Books) : (hmacSignObjects O f secret digest msg B).val =
      hmacSign O f secret digest msg := by
  rw [hmacSignObjects, val_withLabel]
  unfold hmacSignBody hmacSign
  cases digest with
  | none => rfl
  | some md =>
    dsimp only
    split
    · rfl
    cases O.hmac md secret msg with
    | none => rfl
    | some mac =>
      simp only [run_new]
      split <;> rfl

theorem val_loadPemObjects (fault : Bool) (pkey : Option PKey) (B : Books) :
    (loadPemObjects fault pkey B).val = if fault then none else pkey := by
  rw [loadPemObjects, val_withLabel, loadPemBody, run_new, run_orRet, isNone_make_same]
  split <;> rfl

theorem val_validateClaimsObjectObjects (fault : Bool) (claims : Bytes) (B : Books) :
    (validateClaimsObjectObjects E fault claims B).val = validateClaimsObject E fault claims := by
  rw [validateClaimsObjectObjects, val_withLabel]
  unfold validateClaimsObjectBody validateClaimsObject
  cases (if fault then none else E.json.parseUntrusted claims) with
  | none => rfl
  | some json =>
    dsimp only
    rw [run_new]
    cases json.isObject <;> rfl

theorem val_buildHeaderObjects (algName : Bytes) (kid : Option Bytes) (B : Books) :
    (buildHeaderObjects E f algName kid B).val = buildHeader E f algName kid := by
  rw [buildHeaderObjects, val_withLabel]
  unfold buildHeaderBody buildHeader
  -- the statements for the kid, whatever the books are
  have hmember : ∀ s : Frame PUnit, ∃ s', kidMemberBody E f kid s =
      ((match kidMember E f kid with
        | none => .ret none
        | some member => .next member : Flow (Option Bytes) Bytes), s') := by
    intro s
    unfold kidMemberBody kidMember
    cases kid with
    | none => exact ⟨s, rfl⟩
    | some kid =>
      dsimp only
      split
      · cases hnode : f .kidNode with
        | true => exact ⟨_, rfl⟩
        | false =>
          cases htext : f .kidText with
          | true => exact ⟨_, rfl⟩
          | false =>
            cases hquoted : E.json.stringifyString kid <;> exact ⟨_, rfl⟩
      · exact ⟨s, rfl⟩
  obtain ⟨s', hs'⟩ := hmember (.enter PUnit B)
  cases hkid : kidMember E f kid with
  | none =>
    rw [hkid] at hs'
    exact run_bind_ret hs'
  | some member =>
    rw [hkid] at hs'
    rw [run_bind_next hs']
    dsimp only
    split <;> rfl

/-- How a signing step goes on. -/
def signFlow (sig : Option Bytes) : Flow EncodeEnd Bytes :=
  match sig with
  | none => .jump (.error .signature)
  | some sig => .next sig

theorem orSignature_eq (sig : Option Bytes) (s : Frame PUnit) :
    orSignature sig s = (signFlow sig, s) := by
  cases sig <;> rfl

theorem evpSignWith_eq (a : Alg) (msg : Bytes) (pss : Bool) (pkey : PKey) (s : Frame PUnit) :
    ∃ s', evpSignWith E f a msg pss pkey s =
      (signFlow (evpSign E.ossl f pkey a.digest msg pss), s') := by
  rw [evpSignWith, visit_bind, val_evpSignObjects]
  exact ⟨_, orSignature_eq ..⟩

theorem ecdsaSignWith_eq (a : Alg) (msg : Bytes) (pkey : PKey) (s : Frame PUnit) :
    ∃ s', ecdsaSignWith E f a msg pkey s =
      (signFlow (match evpSign E.ossl f pkey a.digest msg false with
        | none => none
        | some der => ecdsaDerToRaw E.ossl (f .rawBuf) der a.ecCoordLen), s') := by
  obtain ⟨s', hs'⟩ := evpSignWith_eq (E := E) (f := f) a msg false pkey s
  cases hder : evpSign E.ossl f pkey a.digest msg false with
  | none =>
    rw [hder] at hs'
    exact ⟨s', bind_jump hs'⟩
  | some der =>
    rw [hder] at hs'
    rw [ecdsaSignWith, bind_next hs', visit_bind, val_ecdsaDerToRawObjects]
    exact ⟨_, orSignature_eq ..⟩

theorem signWithPrivkey_eq {sign : PKey → EncodeCode Bytes} {sig : PKey → Option Bytes}
    (hsign : ∀ pkey s, ∃ s', sign pkey s = (signFlow (sig pkey), s')) (a : Alg) (key : Bytes)
    (s : Frame PUnit) :
    ∃ s', signWithPrivkeyBody E f a key sign s =
      (signFlow (signWithPrivkey E f a key sig).sig, s') := by
  rw [signWithPrivkeyBody, call_bind, loadPemPrivkeyObjects, val_loadPemObjects]
  unfold signWithPrivkey loadPemPrivkey
  cases (if f .bio then none else E.ossl.pemReadPrivateKey key) with
  | none => exact ⟨_, rfl⟩
  | some pkey =>
    dsimp only
    split
    · exact ⟨_, rfl⟩
    · exact hsign ..

/-- The switch goes on with the signature of `signRaw`. -/
theorem signRawBody_eq (a : Alg) (key msg : Bytes) (s : Frame PUnit) :
    ∃ s', signRawBody E f a key msg s = (signFlow (signRaw E f a key msg).sig, s') := by
  unfold signRawBody signRaw
  cases a.family with
  | hmac =>
    dsimp only
    split
    · rw [visit_bind, val_hmacSignObjects]
      exact ⟨_, orSignature_eq ..⟩
    · exact ⟨s, rfl⟩
  | ecdsa => exact signWithPrivkey_eq (fun pkey s => ecdsaSignWith_eq a msg pkey s) a key s
  | rsa | rsaPss | eddsa =>
    exact signWithPrivkey_eq (fun pkey s => evpSignWith_eq a msg _ pkey s) a key s

/-- The first half goes on with the signing input, or returns where `encodePrepare` stops. -/
theorem encodePrepareBody_eq (alg : Bytes) (kid : Option Bytes) (claims : Bytes)
    (s : Frame PUnit) :
    ∃ s', encodePrepareBody E f alg kid claims s =
      ((match encodePrepare E f alg kid claims with
        | .error stop => .ret (.error stop)
        | .ok p => .next p : Flow EncodeEnd (Alg × Bytes)), s') := by
  unfold encodePrepareBody encodePrepare
  split
  · exact ⟨s, rfl⟩
  split
  · exact ⟨s, rfl⟩
  cases lookupAlg E.haveHmac alg with
  | none => exact ⟨s, rfl⟩
  | some a =>
    dsimp only
    rw [visit_bind, val_validateClaimsObjectObjects]
    split
    · exact ⟨_, rfl⟩
    rw [visit_bind, val_buildHeaderObjects]
    cases buildHeader E f a.name kid with
    | none => exact ⟨_, rfl⟩
    | some header =>
      dsimp only
      cases encodeB64url E (f .headerB64) header with
      | none => exact ⟨_, rfl⟩
      | some headerB64 =>
        cases encodeB64url E (f .payloadB64) claims with
        | none => exact ⟨_, rfl⟩
        | some payloadB64 =>
          dsimp only
          split
          · exact ⟨_, rfl⟩
          split <;> exact ⟨_, rfl⟩

/-- What the caller sees is the answer of `encode`. -/
theorem val_encodeObjects (pool : Option Pool) (alg kid claims key : Option Bytes)
    (out : Option OutStr) (B : Books) :
    (encodeObjects E f pool alg kid claims key out B).val =
      (encode E f pool alg kid claims key out).answer := by
  match pool, alg, claims, key, out with
  | none, _, _, _, _ => rfl
  | some _, none, _, _, _ => rfl
  | some _, some _, none, _, _ => rfl
  | some _, some _, some _, none, _ => rfl
  | some _, some _, some _, some _, none => rfl
  | some pool, some alg, some claims, some key, some out =>
    simp only [encodeObjects, encode]
    split
    · rfl
    rw [val_withLabel, encodeObjectsBody]
    obtain ⟨s', hprepare⟩ := encodePrepareBody_eq (E := E) (f := f) alg kid claims (.enter PUnit B)
    cases hp : encodePrepare E f alg kid claims with
    | error stop =>
      rw [hp] at hprepare
      exact run_bind_ret hprepare
    | ok p =>
      obtain ⟨a, msg⟩ := p
      rw [hp] at hprepare
      rw [run_bind_next hprepare]
      dsimp only
      obtain ⟨s'', hsign⟩ := signRawBody_eq (E := E) (f := f) a key msg s'
      cases hsig : (signRaw E f a key msg).sig with
      | none =>
        rw [hsig] at hsign
        simp only [encodeFinish, hsig]
        exact run_bind_jump hsign
      | some sig =>
        rw [hsig] at hsign
        simp only [encodeFinish, hsig]
        rw [run_bind_next hsign]
        unfold encodeTokenBody
        cases encodeB64url E (f .sigB64) sig with
        | none => rfl
        | some sigB64 =>
          dsimp only
          split
          · rfl
          split <;> rfl

/-- **Every object of an issue is freed once, whatever fails.**  Each object that a call of
`nxe_jwx_encode` makes is freed exactly once before it returns, and what the caller sees is what it
sees of `encode`. -/
theorem issue_objects (E : Env PKey) (f : EncodeFaults) (pool : Option Pool)
    (alg kid claims key : Option Bytes) (out : Option OutStr) :
    (∀ o, Settled o (encodeObjects E f pool alg kid claims key out .empty).books.log) ∧
      (encodeObjects E f pool alg kid claims key out .empty).val =
        (encode E f pool alg kid claims key out).answer :=
  ⟨(balanced_encode pool alg kid claims key out).settled (handed_encode ..),
    val_encodeObjects ..⟩

end NxeJwx
