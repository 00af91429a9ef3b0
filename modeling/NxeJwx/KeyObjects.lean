/-
# The objects behind a key

The functions that make a key out of a JWK entry and read it back for its thumbprint, with the
OpenSSL objects they make.  Both code paths are here: the one for OpenSSL 3, which builds a handle
from a parameter list, and the one for 1.1, which fills an `RSA` or an `EC_KEY` and assigns it to
an empty handle.

On the old path numbers go to the `RSA` and the `RSA` to the handle, each only if the call that
takes them succeeds; so what a failure has to free depends on how far the hand-over got.  The label
of either path frees just that (`hands_buildRsa`, `hands_buildEc`), and an entry that yields no key
keeps no handle (`hands_parseOneKey`).
-/
import NxeJwx.IssueObjects
import NxeJwx.Keyval

namespace NxeJwx

open Ledger Objects SharedTail

variable {PKey : Type}

/-- The OpenSSL that the code is compiled with: 3, or 1.1. -/
inductive OsslApi where
  | v3
  | v1
  deriving DecidableEq, Repr

/-- The steps that make or fill an OpenSSL object for one key: the two numbers of a JWK; the
parameter list and the context of OpenSSL 3; the copies of the numbers, the `RSA` or `EC_KEY`, what
is put into it, the handle and the assignment of 1.1; the two numbers of a thumbprint and, in 1.1,
the coordinates they get; the reference to the `EC_KEY` of a PEM. -/
inductive KeyStep where
  | nBn
  | eBn
  | bld
  | push
  | params
  | ctx
  | nDup
  | eDup
  | inner
  | fill
  | pkey
  | assign
  | first
  | second
  | coordinates
  | ecRef
  deriving DecidableEq, Repr

/-- Which of these steps fail. -/
abbrev KeyFaults := KeyStep → Bool

/-! ## 1. Building a handle -/

/-- The pointers of `nxe_jwx_build_rsa_key` and `nxe_jwx_build_ec_key`, on either path. -/
inductive BuildVar where
  | bld
  | params
  | ctx
  | n
  | e
  | inner
  | pkey
  deriving DecidableEq, Repr

/-- The path for OpenSSL 3, the same for both key types, before its label.  `made` is what
`EVP_PKEY_fromdata` makes of the parameters. -/
def buildFromDataBody (g : KeyFaults) (made : Option PKey) :
    Code BuildVar (Option PKey) PUnit := do
  new .bld (g .bld)
  orJump .bld none
  jumpIf (g .push) none
  new .params (g .params)
  orJump .params none
  new .ctx (g .ctx)
  orJump .ctx none
  match made with
  | none => .jump none
  | some pkey => do
    new .pkey false
    .jump (some pkey)

/-- The end of the path for 1.1: a handle takes the `RSA` or `EC_KEY`. -/
def assignPkey (g : KeyFaults) (pkey : PKey) : Code BuildVar (Option PKey) PUnit := do
  new .pkey (g .pkey)
  orJump .pkey none
  if g .assign then
    -- the handle does not own the key that it did not get
    free .pkey
    clear .pkey
    .jump none
  else
    give .inner .pkey
    clear .inner
    .ret (some pkey)

/-- `nxe_jwx_build_rsa_key` for 1.1, before its label.  `RSA_set0_key` takes the copies of both
numbers when it succeeds. -/
def buildRsaBody (g : KeyFaults) (made : Option PKey) : Code BuildVar (Option PKey) PUnit := do
  new .n (g .nDup)
  new .e (g .eDup)
  orJump .n none
  orJump .e none
  new .inner (g .inner)
  orJump .inner none
  jumpIf (g .fill) none
  match made with
  | none => .jump none
  | some pkey => do
    give .n .inner
    give .e .inner
    clear .n
    clear .e
    assignPkey g pkey

/-- `nxe_jwx_build_ec_key` for 1.1, before its label. -/
def buildEcBody (g : KeyFaults) (made : Option PKey) : Code BuildVar (Option PKey) PUnit := do
  new .inner (g .inner)
  orJump .inner none
  jumpIf (g .fill) none
  match made with
  | none => .jump none
  | some pkey => assignPkey g pkey

/-- `nxe_jwx_build_rsa_key` for a modulus and an exponent. -/
def buildRsaObjects (api : OsslApi) (g : KeyFaults) (made : Option PKey) :
    Books → Done (Option PKey) :=
  match api with
  | .v3 => withLabel [.params, .bld, .ctx] (some .pkey) none id Option.join
    (buildFromDataBody g made)
  | .v1 => withLabel [.pkey, .inner, .n, .e] none (some .pkey) id (fun _ => none)
    (buildRsaBody g made)

/-- `nxe_jwx_build_ec_key`. -/
def buildEcObjects (api : OsslApi) (g : KeyFaults) (made : Option PKey) :
    Books → Done (Option PKey) :=
  match api with
  | .v3 => withLabel [.params, .bld, .ctx] (some .pkey) none id Option.join
    (buildFromDataBody g made)
  | .v1 => withLabel [.pkey, .inner] none (some .pkey) id (fun _ => none) (buildEcBody g made)

/-- The code of `nxe_jwx_build_okp_key`. -/
def buildOkpBody (g : KeyFaults) (made : Option PKey) : Code PUnit (Option PKey) PUnit := do
  let pkey := if g .pkey then none else made
  new ⟨⟩ pkey.isNone
  .ret pkey

/-- `nxe_jwx_build_okp_key`. -/
def buildOkpObjects (g : KeyFaults) (made : Option PKey) : Books → Done (Option PKey) :=
  withLabel [] none (some ⟨⟩) id Option.join (buildOkpBody g made)

/-! ## 2. One entry of a JWKS -/

/-- The pointers of `nxe_jwx_parse_rsa`; the last is `k->pkey`. -/
inductive RsaVar where
  | n
  | e
  | pkey
  deriving DecidableEq, Repr

/-- The numbers of an RSA key, and its handle. -/
def rsaNumbersBody (api : OsslApi) (E : Env PKey) (g : KeyFaults) (k : Key PKey)
    (nBn eBn : Nat) : Code RsaVar (Rc × Key PKey) PUnit := do
  new .n (g .nBn)
  new .e (g .eBn)
  ifNull [.n, .e] do
    free .n
    free .e
    .ret (.error, k)
  let nBits := BigEndian.bitLength nBn
  if nBits < minRsaBits ∨ nBits > maxRsaBits then
    free .n
    free .e
    .ret (.declined, k)
  else
    let pkey ← call .pkey (buildRsaObjects api g (E.ossl.rsaFromData nBn eBn))
    free .n
    free .e
    match pkey with
    | none => .ret (.error, { k with pkey := none })
    | some pkey => .ret (.ok, { k with pkey := some pkey, kty := .rsa })

/-- The code of `nxe_jwx_parse_rsa`. -/
def parseRsaBody (api : OsslApi) (E : Env PKey) (f : EntryFaults) (g : KeyFaults) (k : Key PKey)
    (jwk : Json) : Code RsaVar (Rc × Key PKey) PUnit :=
  match b64urlField E (f (.field (ascii "n"))) jwk (ascii "n") with
  | .error => .ret (.error, k)
  | .declined => .ret (.declined, k)
  | .ok nBytes =>
    match b64urlField E (f (.field (ascii "e"))) jwk (ascii "e") with
    | .error => .ret (.error, k)
    | .declined => .ret (.declined, k)
    | .ok eBytes =>
      rsaNumbersBody api E g k (BigEndian.ofBytes nBytes) (BigEndian.ofBytes eBytes)

/-- The code of `nxe_jwx_parse_ec`, whose only pointer is `k->pkey`. -/
def parseEcBody (api : OsslApi) (E : Env PKey) (f : EntryFaults) (g : KeyFaults) (k : Key PKey)
    (jwk : Json) : Code PUnit (Rc × Key PKey) PUnit :=
  if k.crv.length = 0 then .ret (.declined, k)
  else
    match lookupEcCurve k.crv with
    | none => .ret (.declined, k)
    | some curve =>
      match b64urlField E (f (.field (ascii "x"))) jwk (ascii "x") with
      | .error => .ret (.error, k)
      | .declined => .ret (.declined, k)
      | .ok xBytes =>
        if xBytes.length ≠ curve.coordLen then .ret (.declined, k)
        else
          match b64urlField E (f (.field (ascii "y"))) jwk (ascii "y") with
          | .error => .ret (.error, k)
          | .declined => .ret (.declined, k)
          | .ok yBytes =>
            if yBytes.length ≠ curve.coordLen then .ret (.declined, k)
            else if f .point then .ret (.error, k)
            else do
              let point := 4 :: xBytes ++ yBytes
              match ← call ⟨⟩ (buildEcObjects api g (E.ossl.ecFromData curve.osslName point)) with
              | none => .ret (.error, { k with pkey := none })
              | some pkey => .ret (.ok, { k with pkey := some pkey, kty := .ec })

/-- The code of `nxe_jwx_parse_okp`. -/
def parseOkpBody (E : Env PKey) (f : EntryFaults) (g : KeyFaults) (k : Key PKey) (jwk : Json) :
    Code PUnit (Rc × Key PKey) PUnit :=
  if k.crv.length = 0 then .ret (.declined, k)
  else
    match lookupOkpCurve k.crv with
    | none => .ret (.declined, k)
    | some curve =>
      match b64urlField E (f (.field (ascii "x"))) jwk (ascii "x") with
      | .error => .ret (.error, k)
      | .declined => .ret (.declined, k)
      | .ok xBytes =>
        if xBytes.length ≠ curve.keyLen then .ret (.declined, k)
        else do
          match ← call ⟨⟩ (buildOkpObjects g (E.ossl.newRawPublicKey curve.nid xBytes)) with
          | none => .ret (.error, { k with pkey := none })
          | some pkey => .ret (.ok, { k with pkey := some pkey, kty := .okp })

/-- A parser of one key type: it hands the handle in `k->pkey` on. -/
def parserObjects {ν : Type} (pkey : ν) (body : Code ν (Rc × Key PKey) PUnit) :
    Books → Done (Rc × Key PKey) :=
  withLabel [] none (some pkey) id (·.getD (.error, .zero)) body

/-- The switch over `kty` in `nxe_jwx_parse_one_key`. -/
def parseKtyObjects (api : OsslApi) (E : Env PKey) (f : EntryFaults) (g : KeyFaults)
    (kty : Bytes) (k : Key PKey) (jwk : Json) : Books → Done (Rc × Key PKey) :=
  if isName kty (ascii "RSA") then parserObjects RsaVar.pkey (parseRsaBody api E f g k jwk)
  else if isName kty (ascii "EC") then parserObjects PUnit.unit (parseEcBody api E f g k jwk)
  else if isName kty (ascii "OKP") then parserObjects PUnit.unit (parseOkpBody E f g k jwk)
  else if E.haveHmac && isName kty (ascii "oct") then fun B => ⟨parseOct E f k jwk, none, B⟩
  else fun B => ⟨(.declined, k), none, B⟩

/-! ## 3. Thumbprints -/

/-- The pointers of `nxe_jwx_thumbprint_rsa` and `nxe_jwx_thumbprint_ec`. -/
inductive PairVar where
  | first
  | second
  deriving DecidableEq, Repr

/-- Both numbers are freed, and the function fails. -/
def dropPair : Code PairVar (Option Bytes) PUnit := do
  free .first
  free .second
  .ret none

/-- Two numbers are encoded and freed, and spliced into a text. -/
def encodePair (E : Env PKey) (f : ThumbprintFaults) (a b padLen : Nat)
    (text : Bytes → Bytes → Bytes) : Code PairVar (Option Bytes) PUnit := do
  let aB64 := bnToB64url E (f .first) a padLen
  let bB64 := aB64.bind fun _ => bnToB64url E (f .second) b padLen
  free .first
  free .second
  match aB64, bB64 with
  | some aB64, some bB64 => if f .text then .ret none else .ret (some (text aB64 bB64))
  | _, _ => .ret none

/-- `EVP_PKEY_get_bn_param` makes a number, or leaves NULL. -/
def getPairBody (E : Env PKey) (f : ThumbprintFaults) (a b : Option Nat) (padLen : Nat)
    (text : Bytes → Bytes → Bytes) : Code PairVar (Option Bytes) PUnit := do
  new .first a.isNone
  ifNull [.first] dropPair
  new .second b.isNone
  ifNull [.second] dropPair
  match a, b with
  | some a, some b => encodePair E f a b padLen text
  | _, _ => dropPair

/-- `BN_new` makes both numbers, and they get their values together. -/
def newPairBody (E : Env PKey) (f : ThumbprintFaults) (g : KeyFaults) (a b : Option Nat)
    (padLen : Nat) (text : Bytes → Bytes → Bytes) : Code PairVar (Option Bytes) PUnit := do
  new .first (g .first)
  new .second (g .second)
  ifNull [.first, .second] dropPair
  if g .coordinates then dropPair
  else
    match a, b with
    | some a, some b => encodePair E f a b padLen text
    | _, _ => dropPair

/-- The text of an RSA key. -/
def rsaJson (nB64 eB64 : Bytes) : Bytes :=
  ascii "\x7b\"e\":\"" ++ eB64 ++ ascii "\",\"kty\":\"RSA\",\"n\":\"" ++ nB64 ++ ascii "\"\x7d"

/-- The text of an EC key. -/
def ecJson (crv xB64 yB64 : Bytes) : Bytes :=
  ascii "\x7b\"crv\":\"" ++ crv ++ ascii "\",\"kty\":\"EC\",\"x\":\"" ++ xB64 ++
    ascii "\",\"y\":\"" ++ yB64 ++ ascii "\"\x7d"

/-- A number that a step fails to make is missing. -/
def orMissing (fault : Bool) (a : Option Nat) : Option Nat := if fault then none else a

/-- The code of `nxe_jwx_thumbprint_rsa` for OpenSSL 3. -/
def thumbprintRsaBody (E : Env PKey) (f : ThumbprintFaults) (g : KeyFaults) (k : Key PKey) :
    Code PairVar (Option Bytes) PUnit :=
  match k.pkey with
  | none => .ret none
  | some pkey => getPairBody E f (orMissing (g .first) (E.ossl.rsaN pkey))
    (orMissing (g .second) (E.ossl.rsaE pkey)) 0 rsaJson

/-- `nxe_jwx_thumbprint_rsa`.  In 1.1 the numbers belong to the handle. -/
def thumbprintRsaObjects (api : OsslApi) (E : Env PKey) (f : ThumbprintFaults) (g : KeyFaults)
    (k : Key PKey) : Books → Done (Option Bytes) :=
  match api with
  | .v3 => withLabel [] none none id Option.join (thumbprintRsaBody E f g k)
  | .v1 => fun B => ⟨thumbprintRsa E f k, none, B⟩

/-- The code of `nxe_jwx_thumbprint_ec`. -/
def thumbprintEcBody (api : OsslApi) (E : Env PKey) (f : ThumbprintFaults) (g : KeyFaults)
    (k : Key PKey) : Code PairVar (Option Bytes) PUnit :=
  match k.pkey with
  | none => .ret none
  | some pkey =>
    let bits := E.ossl.bits pkey
    if bits ≤ 0 then .ret none
    else
      let coordLen := ((bits + 7) / 8).toNat
      match api with
      | .v3 => getPairBody E f (orMissing (g .first) (E.ossl.ecX pkey))
        (orMissing (g .second) (E.ossl.ecY pkey)) coordLen (ecJson k.crv)
      | .v1 => newPairBody E f g (E.ossl.ecX pkey) (E.ossl.ecY pkey) coordLen (ecJson k.crv)

/-- `nxe_jwx_thumbprint_ec`. -/
def thumbprintEcObjects (api : OsslApi) (E : Env PKey) (f : ThumbprintFaults) (g : KeyFaults)
    (k : Key PKey) : Books → Done (Option Bytes) :=
  withLabel [] none none id Option.join (thumbprintEcBody api E f g k)

/-- The switch of `nxe_jwx_jwk_thumbprint`.  The other key types make no object. -/
def thumbprintTextBody (api : OsslApi) (E : Env PKey) (f : ThumbprintFaults) (g : KeyFaults)
    (k : Key PKey) : Code PUnit (Rc × Key PKey) (Ret Bytes) :=
  match k.kty with
  | .rsa => do
    let json ← visit (thumbprintRsaObjects api E f g k)
    pure (.ofOption json)
  | .ec => do
    let json ← visit (thumbprintEcObjects api E f g k)
    pure (.ofOption json)
  | _ => pure (thumbprintText E f k)

/-- The code of `nxe_jwx_jwk_thumbprint`. -/
def jwkThumbprintBody (api : OsslApi) (E : Env PKey) (f : ThumbprintFaults) (g : KeyFaults)
    (key : Key PKey) : Code PUnit (Rc × Key PKey) PUnit := do
  let k := { key with thumbprint := [] }
  match ← thumbprintTextBody api E f g k with
  | .declined => .ret (.declined, k)
  | .error => .ret (.error, k)
  | .ok json =>
    if !E.ossl.digestByName .sha256 then .ret (.error, k)
    else
      match (if f .digest then none else E.ossl.digest .sha256 json) with
      | none => .ret (.error, k)
      | some digest =>
        match encodeB64url E (f .out) digest with
        | none => .ret (.error, k)
        | some thumbprint => .ret (.ok, { k with thumbprint := thumbprint })

/-- `nxe_jwx_jwk_thumbprint`. -/
def jwkThumbprintObjects (api : OsslApi) (E : Env PKey) (f : ThumbprintFaults) (g : KeyFaults)
    (key : Key PKey) : Books → Done (Rc × Key PKey) :=
  withLabel [] none none id (·.getD (.error, key)) (jwkThumbprintBody api E f g key)

/-- The end of `nxe_jwx_parse_one_key`: the switch, and the thumbprint if it succeeds. -/
def labelledBody (api : OsslApi) (E : Env PKey) (f : EntryFaults) (g : KeyFaults) (kty : Bytes)
    (k : Key PKey) (jwk : Json) : Code PUnit (Rc × Key PKey) PUnit := do
  let r ← call ⟨⟩ (parseKtyObjects api E f g kty k jwk)
  if r.1 = .ok then
    let t ← visit (jwkThumbprintObjects api E (fun s => f (.thumbprint s)) g r.2)
    .ret (.ok, t.2)
  else .ret r

/-- The code of `nxe_jwx_parse_one_key`. -/
def parseOneKeyBody (api : OsslApi) (E : Env PKey) (f : EntryFaults) (g : KeyFaults)
    (jwk : Json) : Code PUnit (Rc × Key PKey) PUnit :=
  match stringField jwk (ascii "kty") with
  | none => .ret (.declined, .zero)
  | some kty =>
    if (stringField jwk (ascii "use")).any fun use => isName use (ascii "enc") then
      .ret (.declined, .zero)
    else
      let kid := stringField jwk (ascii "kid")
      if kid.any fun kid => decide (kid.length = 0) then .ret (.declined, .zero)
      else
        let k : Key PKey :=
          { Key.zero with
            kid := kid.getD []
            alg := (stringField jwk (ascii "alg")).getD []
            crv := (stringField jwk (ascii "crv")).getD [] }
        match dupStrToPool (f .dupKid) k.kid, dupStrToPool (f .dupAlg) k.alg,
          dupStrToPool (f .dupCrv) k.crv with
        | some kid, some alg, some crv =>
          labelledBody api E f g kty { k with kid := kid, alg := alg, crv := crv } jwk
        | _, _, _ => .ret (.error, k)

/-- `nxe_jwx_parse_one_key`: the handle of the key goes to the slot. -/
def parseOneKeyObjects (api : OsslApi) (E : Env PKey) (f : EntryFaults) (g : KeyFaults)
    (jwk : Json) : Books → Done (Rc × Key PKey) :=
  parserObjects PUnit.unit (parseOneKeyBody api E f g jwk)

/-! ## 4. The books balance -/

section Build

variable {g : KeyFaults}

/-- A jump before there is a handle. -/
theorem failed_build {outer : List Nat} {vs ys allowed : List BuildVar} {s : Frame BuildVar}
    {keep : Option BuildVar} (hkeep : keep = some .pkey ∨ keep = none)
    (h : At outer vs [] ys s) (hsub : ∀ x ∈ vs, x ∈ allowed) (hpkey : .pkey ∉ vs ∨ keep = none) :
    Held outer allowed s ∧ NullWith (none : Option PKey) (keep.bind s.var) := by
  refine ⟨h.held hsub fun _ hx => absurd hx List.not_mem_nil, fun _ => ?_⟩
  rcases hpkey with hpkey | rfl
  · rcases hkeep with rfl | rfl
    · exact h.null .pkey hpkey List.not_mem_nil
    · rfl
  · rfl

theorem hands_buildFromData (made : Option PKey) :
    Hands NullWith (withLabel [.params, .bld, .ctx] (some .pkey) none id Option.join
      (buildFromDataBody g made)) := by
  refine hands_withLabel (by decide) fun outer => ?_
  unfold buildFromDataBody
  refine Triple.bind (triple_new (by decide) (by decide)) fun _ => ?_
  refine Triple.bind (triple_orJump fun s h => failed_build (.inl rfl) h (by decide)
    (.inl (by decide))) fun _ => ?_
  refine Triple.bind (triple_jumpIf fun s h => failed_build (.inl rfl) h (by decide)
    (.inl (by decide))) fun _ => ?_
  refine Triple.bind (triple_new (by decide) (by decide)) fun _ => ?_
  refine Triple.bind (triple_orJump fun s h => failed_build (.inl rfl) h (by decide)
    (.inl (by decide))) fun _ => ?_
  refine Triple.bind (triple_new (by decide) (by decide)) fun _ => ?_
  refine Triple.bind (triple_orJump fun s h => failed_build (.inl rfl) h (by decide)
    (.inl (by decide))) fun _ => ?_
  cases made with
  | none => exact Triple.goto fun s h => failed_build (.inl rfl) h (by decide) (.inl (by decide))
  | some pkey =>
    refine Triple.bind (triple_new (by decide) (by decide)) fun _ => ?_
    refine Triple.goto fun s h => ⟨?_, fun hnone => nomatch hnone⟩
    exact h.held (by decide) fun _ hx => absurd hx List.not_mem_nil

/-- From an `RSA` or `EC_KEY` that is there to the handle that owns it. -/
theorem triple_assignPkey {outer : List Nat} {ys xs : List BuildVar} (pkey : PKey)
    (hxs : ∀ x ∈ [BuildVar.pkey, BuildVar.inner], x ∈ xs) {next : PUnit → Frame BuildVar → Prop} :
    Triple (At outer [.inner] [] ys) (assignPkey g pkey) next
      (fun r s => Sound s.books (nodesOf (s.var .pkey) ++ outer) ∧ NullWith r (s.var .pkey))
      fun _ s => Held outer (xs ++ (none : Option BuildVar).toList) s ∧
        NullWith (none : Option PKey) ((none : Option BuildVar).bind s.var) := by
  have hxs' : ∀ vs : List BuildVar, (∀ x ∈ vs, x ∈ [BuildVar.pkey, BuildVar.inner]) →
      ∀ x ∈ vs, x ∈ xs ++ (none : Option BuildVar).toList :=
    fun vs h x hx => List.mem_append_left _ (hxs x (h x hx))
  unfold assignPkey
  refine Triple.bind (triple_new (by decide) (by decide)) fun _ => ?_
  refine Triple.bind (triple_orJump fun s h => failed_build (.inr rfl) h
    (hxs' _ (by decide)) (.inr rfl)) fun _ => ?_
  split
  · refine Triple.bind (triple_free (by decide)) fun _ => ?_
    refine Triple.bind (triple_clear [] [] (by decide) (by decide) (by simp)) fun _ => ?_
    exact Triple.goto fun s h => failed_build (.inr rfl) h (hxs' _ (by decide)) (.inr rfl)
  · refine Triple.bind (triple_give (by decide) (by simp) (by decide) (by decide)) fun _ => ?_
    refine Triple.bind (triple_clear [] [] (by decide) (by decide) (by simp)) fun _ => ?_
    exact Triple.leave fun s h => ⟨h.handed (by decide) (by decide), fun hnone => nomatch hnone⟩

theorem hands_buildRsa (api : OsslApi) (made : Option PKey) :
    Hands NullWith (buildRsaObjects api g made) := by
  cases api with
  | v3 => exact hands_buildFromData made
  | v1 =>
    refine hands_withLabel (by decide) fun outer => ?_
    unfold buildRsaBody
    refine Triple.bind (triple_new (by decide) (by decide)) fun _ => ?_
    refine Triple.bind (triple_new (by decide) (by decide)) fun _ => ?_
    refine Triple.bind (triple_orJump fun s h => failed_build (.inr rfl) h (by decide)
      (.inr rfl)) fun _ => ?_
    refine Triple.bind (triple_orJump fun s h => failed_build (.inr rfl) h (by decide)
      (.inr rfl)) fun _ => ?_
    refine Triple.bind (triple_new (by decide) (by decide)) fun _ => ?_
    refine Triple.bind (triple_orJump fun s h => failed_build (.inr rfl) h (by decide)
      (.inr rfl)) fun _ => ?_
    refine Triple.bind (triple_jumpIf fun s h => failed_build (.inr rfl) h (by decide)
      (.inr rfl)) fun _ => ?_
    cases made with
    | none => exact Triple.goto fun s h => failed_build (.inr rfl) h (by decide) (.inr rfl)
    | some pkey =>
      refine Triple.bind (triple_give (by decide) (by decide) (by decide) (by decide)) fun _ => ?_
      refine Triple.bind (triple_give (by decide) (by decide) (by decide) (by decide)) fun _ => ?_
      refine Triple.bind (triple_clear [.e] [] (by decide) (by decide) (by decide)) fun _ => ?_
      refine Triple.bind (triple_clear [] [] (by decide) (by decide) (by decide)) fun _ => ?_
      exact triple_assignPkey pkey (by decide)

theorem hands_buildEc (api : OsslApi) (made : Option PKey) :
    Hands NullWith (buildEcObjects api g made) := by
  cases api with
  | v3 => exact hands_buildFromData made
  | v1 =>
    refine hands_withLabel (by decide) fun outer => ?_
    unfold buildEcBody
    refine Triple.bind (triple_new (by decide) (by decide)) fun _ => ?_
    refine Triple.bind (triple_orJump fun s h => failed_build (.inr rfl) h (by decide)
      (.inr rfl)) fun _ => ?_
    refine Triple.bind (triple_jumpIf fun s h => failed_build (.inr rfl) h (by decide)
      (.inr rfl)) fun _ => ?_
    cases made with
    | none => exact Triple.goto fun s h => failed_build (.inr rfl) h (by decide) (.inr rfl)
    | some pkey => exact triple_assignPkey pkey (by decide)

theorem hands_buildOkp (made : Option PKey) : Hands NullWith (buildOkpObjects g made) := by
  refine hands_withLabel (by decide) fun outer => ?_
  unfold buildOkpBody
  refine Triple.bind (triple_new_null (by decide) (by decide)) fun _ => ?_
  refine Triple.leave fun s h => ⟨h.1.handed (by decide) (by decide), fun hnone => h.2 ?_⟩
  exact Option.isNone_iff_eq_none.mpr hnone

end Build

section Entry

variable {api : OsslApi} {E : Env PKey} {f : EntryFaults} {g : KeyFaults} {k : Key PKey}
  {jwk : Json}

/-- Only a key that is kept has a handle. -/
def KeyOnly (r : Rc × Key PKey) (o : Option Obj) : Prop := r.1 ≠ .ok → o = none

/-- A plain `return` without a key. -/
theorem noKey_returned {ν : Type} [DecidableEq ν] {outer : List Nat} {stale ys : List ν}
    {s : Frame ν} {x : ν} {rc : Rc} {k : Key PKey} (h : At outer [] stale ys s) (hx : x ∉ stale) :
    Sound s.books (nodesOf ((some x).bind s.var) ++ outer) ∧
      KeyOnly (rc, k) ((some x).bind s.var) :=
  ⟨h.handed (fun _ hy => absurd hy List.not_mem_nil) hx,
    fun _ => h.null x List.not_mem_nil hx⟩

/-- A plain `return` with a key, or without the handle of one. -/
theorem key_returned {ν : Type} [DecidableEq ν] {outer : List Nat} {stale ys : List ν}
    {s : Frame ν} {x : ν} {r : Rc × Key PKey} (h : At outer [x] stale ys s) (hx : x ∉ stale)
    (hnone : r.1 ≠ .ok → s.var x = none) :
    Sound s.books (nodesOf ((some x).bind s.var) ++ outer) ∧ KeyOnly r ((some x).bind s.var) :=
  ⟨h.handed (fun _ hy => List.mem_singleton.mp hy) hx, hnone⟩

/-- The numbers are freed on each way out, the handle stays. -/
theorem triple_rsaNumbers {outer : List Nat} (nBn eBn : Nat)
    {next : PUnit → Frame RsaVar → Prop} {jump : Rc × Key PKey → Frame RsaVar → Prop} :
    Triple (At outer [] [] []) (rsaNumbersBody api E g k nBn eBn) next
      (fun r s => Sound s.books (nodesOf ((some RsaVar.pkey).bind s.var) ++ outer) ∧
        KeyOnly r ((some RsaVar.pkey).bind s.var)) jump := by
  unfold rsaNumbersBody
  refine Triple.bind (triple_new (by decide) (by decide)) fun _ => ?_
  refine Triple.bind (triple_new (by decide) (by decide)) fun _ => ?_
  refine Triple.bind (triple_ifNull ?_) fun _ => ?_
  · refine Triple.bind (triple_free (by decide)) fun _ => ?_
    refine Triple.bind (triple_free (by decide)) fun _ => ?_
    exact Triple.leave fun s h => noKey_returned h (by decide)
  dsimp only
  split
  · refine Triple.bind (triple_free (by decide)) fun _ => ?_
    refine Triple.bind (triple_free (by decide)) fun _ => ?_
    exact Triple.leave fun s h => noKey_returned h (by decide)
  · refine Triple.bind (triple_call_hands (hands_buildRsa ..) (by decide) (by decide))
      fun pkey => ?_
    refine Triple.bind (triple_free_keeping (fun var => NullWith pkey (var RsaVar.pkey))
      (by decide)) fun _ => ?_
    refine Triple.bind (triple_free_keeping (fun var => NullWith pkey (var RsaVar.pkey))
      (by decide)) fun _ => ?_
    cases pkey with
    | none => exact Triple.leave fun s h => key_returned h.1 (by decide) fun _ => h.2 rfl
    | some pkey =>
      exact Triple.leave fun s h => key_returned h.1 (by decide) fun hne => absurd rfl hne

theorem hands_parseRsa : Hands KeyOnly (parserObjects .pkey (parseRsaBody api E f g k jwk)) := by
  refine hands_withLabel (by decide) fun outer => ?_
  unfold parseRsaBody
  split
  · exact Triple.leave fun s h => noKey_returned h (by decide)
  · exact Triple.leave fun s h => noKey_returned h (by decide)
  split
  · exact Triple.leave fun s h => noKey_returned h (by decide)
  · exact Triple.leave fun s h => noKey_returned h (by decide)
  · exact triple_rsaNumbers _ _

/-- A handle that was built, or not, is all that such a parser has. -/
theorem triple_keyOf {outer : List Nat} {made : Option PKey} {kty : Kty}
    {next : PUnit → Frame PUnit → Prop} {jump : Rc × Key PKey → Frame PUnit → Prop} :
    Triple (fun s => At outer [PUnit.unit] [] [] s ∧ NullWith made (s.var ⟨⟩))
      (match made with
        | none => Body.ret (.error, { k with pkey := none })
        | some pkey => Body.ret (.ok, { k with pkey := some pkey, kty := kty }) :
          Code PUnit (Rc × Key PKey) PUnit) next
      (fun r s => Sound s.books (nodesOf ((some PUnit.unit).bind s.var) ++ outer) ∧
        KeyOnly r ((some PUnit.unit).bind s.var)) jump := by
  cases made with
  | none => exact Triple.leave fun s h => key_returned h.1 (by decide) fun _ => h.2 rfl
  | some pkey =>
    exact Triple.leave fun s h => key_returned h.1 (by decide) fun hne => absurd rfl hne

theorem hands_parseEc : Hands KeyOnly (parserObjects ⟨⟩ (parseEcBody api E f g k jwk)) := by
  refine hands_withLabel (by decide) fun outer => ?_
  unfold parseEcBody
  split
  · exact Triple.leave fun s h => noKey_returned h (by decide)
  split
  · exact Triple.leave fun s h => noKey_returned h (by decide)
  split
  · exact Triple.leave fun s h => noKey_returned h (by decide)
  · exact Triple.leave fun s h => noKey_returned h (by decide)
  split
  · exact Triple.leave fun s h => noKey_returned h (by decide)
  split
  · exact Triple.leave fun s h => noKey_returned h (by decide)
  · exact Triple.leave fun s h => noKey_returned h (by decide)
  split
  · exact Triple.leave fun s h => noKey_returned h (by decide)
  split
  · exact Triple.leave fun s h => noKey_returned h (by decide)
  · exact Triple.bind (triple_call_hands (hands_buildEc ..) (by decide) (by decide))
      fun made => triple_keyOf

theorem hands_parseOkp : Hands KeyOnly (parserObjects ⟨⟩ (parseOkpBody E f g k jwk)) := by
  refine hands_withLabel (by decide) fun outer => ?_
  unfold parseOkpBody
  split
  · exact Triple.leave fun s h => noKey_returned h (by decide)
  split
  · exact Triple.leave fun s h => noKey_returned h (by decide)
  split
  · exact Triple.leave fun s h => noKey_returned h (by decide)
  · exact Triple.leave fun s h => noKey_returned h (by decide)
  split
  · exact Triple.leave fun s h => noKey_returned h (by decide)
  · exact Triple.bind (triple_call_hands (hands_buildOkp ..) (by decide) (by decide))
      fun made => triple_keyOf

/-- What makes no object hands none on. -/
theorem hands_pure {α : Type} {P : α → Option Obj → Prop} {a : α} (h : P a none) :
    Hands P fun B => ⟨a, none, B⟩ :=
  ⟨⟨fun _ _ hB => hB⟩, fun _ _ _ => h⟩

theorem hands_parseKty (kty : Bytes) :
    Hands KeyOnly (parseKtyObjects api E f g kty k jwk) := by
  unfold parseKtyObjects
  split
  · exact hands_parseRsa
  split
  · exact hands_parseEc
  split
  · exact hands_parseOkp
  split
  · exact hands_pure fun _ => rfl
  · exact hands_pure fun _ => rfl

end Entry

section Thumbprint

variable {api : OsslApi} {E : Env PKey} {f : ThumbprintFaults} {g : KeyFaults} {k : Key PKey}
  {outer : List Nat} {next : PUnit → Frame PairVar → Prop}
  {jump : Option Bytes → Frame PairVar → Prop}

/-- Where a function with two numbers may return. -/
abbrev PairReturned (outer : List Nat) (s : Frame PairVar) : Prop :=
  Sound s.books (nodesOf ((none : Option PairVar).bind s.var) ++ outer)

theorem triple_dropPair {ys : List PairVar} :
    Triple (At outer [.second, .first] [] ys) dropPair next (fun _ => PairReturned outer) jump := by
  unfold dropPair
  refine Triple.bind (triple_free (by decide)) fun _ => ?_
  refine Triple.bind (triple_free (by decide)) fun _ => ?_
  exact Triple.leave fun s h => h.returned

/-- The second number is NULL when the first could not be made. -/
theorem triple_dropFirst {ys : List PairVar} :
    Triple (At outer [.first] [] ys) dropPair next (fun _ => PairReturned outer) jump := by
  unfold dropPair
  refine Triple.bind (triple_free (by decide)) fun _ => ?_
  refine Triple.bind (triple_free_null (by decide) (by decide)) fun _ => ?_
  exact Triple.leave fun s h => h.returned

theorem triple_encodePair {ys : List PairVar} (a b padLen : Nat) (text : Bytes → Bytes → Bytes) :
    Triple (At outer [.second, .first] [] ys) (encodePair E f a b padLen text) next
      (fun _ => PairReturned outer) jump := by
  unfold encodePair
  refine Triple.bind (triple_free (by decide)) fun _ => ?_
  refine Triple.bind (triple_free (by decide)) fun _ => ?_
  split
  · split
    · exact Triple.leave fun s h => h.returned
    · exact Triple.leave fun s h => h.returned
  · exact Triple.leave fun s h => h.returned

theorem triple_getPair (a b : Option Nat) (padLen : Nat) (text : Bytes → Bytes → Bytes) :
    Triple (At outer [] [] []) (getPairBody E f a b padLen text) next
      (fun _ => PairReturned outer) jump := by
  unfold getPairBody
  refine Triple.bind (triple_new (by decide) (by decide)) fun _ => ?_
  refine Triple.bind (triple_ifNull triple_dropFirst) fun _ => ?_
  refine Triple.bind (triple_new (by decide) (by decide)) fun _ => ?_
  refine Triple.bind (triple_ifNull triple_dropPair) fun _ => ?_
  split
  · exact triple_encodePair _ _ _ _
  · exact triple_dropPair

theorem triple_newPair (a b : Option Nat) (padLen : Nat) (text : Bytes → Bytes → Bytes) :
    Triple (At outer [] [] []) (newPairBody E f g a b padLen text) next
      (fun _ => PairReturned outer) jump := by
  unfold newPairBody
  refine Triple.bind (triple_new (by decide) (by decide)) fun _ => ?_
  refine Triple.bind (triple_new (by decide) (by decide)) fun _ => ?_
  refine Triple.bind (triple_ifNull triple_dropPair) fun _ => ?_
  split
  · exact triple_dropPair
  split
  · exact triple_encodePair _ _ _ _
  · exact triple_dropPair

theorem balanced_thumbprintRsa : Balanced (thumbprintRsaObjects api E f g k) := by
  cases api with
  | v1 => exact ⟨fun _ _ hB => hB⟩
  | v3 =>
    refine balanced_withLabel (by decide) fun outer => ?_
    unfold thumbprintRsaBody
    split
    · exact Triple.leave fun s h => h.returned
    · exact triple_getPair _ _ _ _

theorem handed_thumbprintRsa (B : Books) :
    (thumbprintRsaObjects api E f g k B).handed = none := by
  cases api with
  | v1 => rfl
  | v3 => exact handed_withLabel ..

theorem balanced_thumbprintEc : Balanced (thumbprintEcObjects api E f g k) := by
  refine balanced_withLabel (by decide) fun outer => ?_
  unfold thumbprintEcBody
  split
  · exact Triple.leave fun s h => h.returned
  dsimp only
  split
  · exact Triple.leave fun s h => h.returned
  cases api with
  | v3 => exact triple_getPair _ _ _ _
  | v1 => exact triple_newPair _ _ _ _

theorem balanced_jwkThumbprint : Balanced (jwkThumbprintObjects api E f g k) := by
  refine balanced_withLabel (by decide) fun outer => ?_
  unfold jwkThumbprintBody
  refine Triple.bind (m := fun _ => At outer [] [] []) ?_ fun json => ?_
  · unfold thumbprintTextBody
    split
    · refine Triple.bind (triple_visit balanced_thumbprintRsa handed_thumbprintRsa) fun _ => ?_
      exact Triple.pure fun _ h => h
    · refine Triple.bind (triple_visit balanced_thumbprintEc fun _ => handed_withLabel ..)
        fun _ => ?_
      exact Triple.pure fun _ h => h
    · exact Triple.pure fun _ h => h
  split
  · exact Triple.leave fun s h => h.returned
  · exact Triple.leave fun s h => h.returned
  split
  · exact Triple.leave fun s h => h.returned
  split
  · exact Triple.leave fun s h => h.returned
  split
  · exact Triple.leave fun s h => h.returned
  · exact Triple.leave fun s h => h.returned

end Thumbprint

/-- An entry that yields no key keeps nothing. -/
theorem hands_parseOneKey {api : OsslApi} {E : Env PKey} {f : EntryFaults} {g : KeyFaults}
    {jwk : Json} : Hands KeyOnly (parseOneKeyObjects api E f g jwk) := by
  unfold parseOneKeyObjects parserObjects
  refine hands_withLabel (by decide) fun outer => ?_
  unfold parseOneKeyBody
  split
  · exact Triple.leave fun s h => noKey_returned h (by decide)
  split
  · exact Triple.leave fun s h => noKey_returned h (by decide)
  dsimp only
  split
  · exact Triple.leave fun s h => noKey_returned h (by decide)
  split
  · unfold labelledBody
    refine Triple.bind (triple_call_hands (hands_parseKty _) (by decide) (by decide))
      fun r => ?_
    split
    · refine Triple.bind (m := fun _ => At outer [PUnit.unit] [] []) ?_ fun t => ?_
      · exact (triple_visit balanced_jwkThumbprint fun _ => handed_withLabel ..).weaken
          (fun _ h => h.1) (fun _ _ h => h) fun _ _ h => h
      · exact Triple.leave fun s h => key_returned h (by decide) fun hne => absurd rfl hne
    next hrc =>
      exact Triple.leave fun s h => key_returned h.1 (by decide) fun _ => h.2 hrc
  · exact Triple.leave fun s h => noKey_returned h (by decide)

/-! ## 5. The results -/

section Values

variable {api : OsslApi} {E : Env PKey} {g : KeyFaults}

/-- An answer is the full one, or it is missing because a step failed. -/
def OrFails {α : Type} (g : KeyFaults) (a full : Option α) : Prop :=
  a = full ∨ a = none ∧ ∃ step, g step = true

theorem val_buildFromData (made : Option PKey) (B : Books) :
    OrFails g (withLabel [.params, .bld, .ctx] (some .pkey) none id Option.join
      (buildFromDataBody g made) B).val made := by
  rw [val_withLabel]
  unfold buildFromDataBody
  simp only [run_new, run_orJump, run_jumpIf, isNone_make_same]
  split
  next h => exact .inr ⟨rfl, _, h⟩
  split
  next h => exact .inr ⟨rfl, _, h⟩
  split
  next h => exact .inr ⟨rfl, _, h⟩
  split
  next h => exact .inr ⟨rfl, _, h⟩
  cases made <;> exact .inl rfl

theorem run_assignPkey (pkey : PKey) (s : Frame BuildVar) :
    OrFails g ((assignPkey g pkey).run (fun r _ => id r) (fun _ _ => none) s) (some pkey) := by
  unfold assignPkey
  rw [run_new, run_orJump, isNone_make_same]
  split
  next h => exact .inr ⟨rfl, _, h⟩
  split
  next h => exact .inr ⟨rfl, _, h⟩
  · exact .inl rfl

theorem val_buildRsa (made : Option PKey) (B : Books) :
    OrFails g (buildRsaObjects api g made B).val made := by
  cases api with
  | v3 => exact val_buildFromData ..
  | v1 =>
    show OrFails g (withLabel _ _ _ _ _ _ B).val made
    rw [val_withLabel]
    unfold buildRsaBody
    simp only [run_new, run_orJump, run_jumpIf, isNone_make_same,
      var_make_other (show BuildVar.n ≠ BuildVar.e by decide)]
    split
    next h => exact .inr ⟨rfl, _, h⟩
    split
    next h => exact .inr ⟨rfl, _, h⟩
    split
    next h => exact .inr ⟨rfl, _, h⟩
    split
    next h => exact .inr ⟨rfl, _, h⟩
    cases made with
    | none => exact .inl rfl
    | some pkey =>
      simp only [run_give, run_clear]
      exact run_assignPkey ..

theorem val_buildEc (made : Option PKey) (B : Books) :
    OrFails g (buildEcObjects api g made B).val made := by
  cases api with
  | v3 => exact val_buildFromData ..
  | v1 =>
    show OrFails g (withLabel _ _ _ _ _ _ B).val made
    rw [val_withLabel]
    unfold buildEcBody
    simp only [run_new, run_orJump, run_jumpIf, isNone_make_same]
    split
    next h => exact .inr ⟨rfl, _, h⟩
    split
    next h => exact .inr ⟨rfl, _, h⟩
    cases made with
    | none => exact .inl rfl
    | some pkey => exact run_assignPkey ..

theorem val_buildOkp (made : Option PKey) (B : Books) :
    OrFails g (buildOkpObjects g made B).val made := by
  rw [buildOkpObjects, val_withLabel, buildOkpBody]
  cases h : g .pkey with
  | true => exact .inr ⟨rfl, _, h⟩
  | false => exact .inl rfl

/-! ### Thumbprints -/

variable {f : ThumbprintFaults} {k : Key PKey}

/-- The two numbers of a thumbprint, put together. -/
def pairText (E : Env PKey) (f : ThumbprintFaults) (a b : Option Nat) (padLen : Nat)
    (text : Bytes → Bytes → Bytes) : Option Bytes := do
  let a ← a
  let b ← b
  let aB64 ← bnToB64url E (f .first) a padLen
  let bB64 ← bnToB64url E (f .second) b padLen
  if f .text then none else return text aB64 bB64

theorem run_encodePair (a b padLen : Nat) (text : Bytes → Bytes → Bytes) (s : Frame PairVar) :
    (encodePair E f a b padLen text).run (fun r _ => id r) (fun r _ => Option.join r) s =
      pairText E f (some a) (some b) padLen text := by
  unfold encodePair pairText
  simp only [run_free, Option.bind_eq_bind, Option.bind_some]
  cases bnToB64url E (f .first) a padLen with
  | none => rfl
  | some aB64 =>
    simp only [Option.bind_some]
    cases bnToB64url E (f .second) b padLen with
    | none => rfl
    | some bB64 =>
      dsimp only [Option.bind_some]
      split <;> rfl

/-- Dropping both numbers leaves the function. -/
theorem run_dropPair_bind (c : PUnit → Code PairVar (Option Bytes) PUnit) (s : Frame PairVar) :
    (dropPair >>= c).run (fun r _ => id r) (fun r _ => Option.join r) s = none := rfl

theorem run_getPair (a b : Option Nat) (padLen : Nat) (text : Bytes → Bytes → Bytes)
    (s : Frame PairVar) :
    (getPairBody E f a b padLen text).run (fun r _ => id r) (fun r _ => Option.join r) s =
      pairText E f a b padLen text := by
  unfold getPairBody
  simp only [run_new, run_ifNull, List.any_cons, List.any_nil, Bool.or_false, isNone_make_same,
    run_dropPair_bind]
  cases a with
  | none => rfl
  | some a =>
    cases b with
    | none => rfl
    | some b => exact run_encodePair ..

theorem run_newPair (a b : Option Nat) (padLen : Nat) (text : Bytes → Bytes → Bytes)
    (s : Frame PairVar) :
    OrFails g ((newPairBody E f g a b padLen text).run (fun r _ => id r)
      (fun r _ => Option.join r) s) (pairText E f a b padLen text) := by
  unfold newPairBody
  simp only [run_new, run_ifNull, List.any_cons, List.any_nil, Bool.or_false, isNone_make_same,
    var_make_other (show PairVar.first ≠ PairVar.second by decide), run_dropPair_bind]
  split
  next h =>
    rcases Bool.or_eq_true_iff.mp h with h | h
    · exact .inr ⟨rfl, _, h⟩
    · exact .inr ⟨rfl, _, h⟩
  split
  next h => exact .inr ⟨rfl, _, h⟩
  cases a with
  | none => exact .inl rfl
  | some a =>
    cases b with
    | none => exact .inl rfl
    | some b => exact .inl (run_encodePair ..)

theorem pairText_orMissing (a b : Option Nat) (padLen : Nat) (text : Bytes → Bytes → Bytes) :
    OrFails g (pairText E f (orMissing (g .first) a) (orMissing (g .second) b) padLen text)
      (pairText E f a b padLen text) := by
  cases hfirst : g .first with
  | true => exact .inr ⟨rfl, _, hfirst⟩
  | false =>
    cases hsecond : g .second with
    | true =>
      refine .inr ⟨?_, _, hsecond⟩
      cases a <;> rfl
    | false => exact .inl rfl

theorem thumbprintRsa_eq : thumbprintRsa E f k =
    k.pkey.bind fun pkey =>
      pairText E f (E.ossl.rsaN pkey) (E.ossl.rsaE pkey) 0 rsaJson := rfl

theorem val_thumbprintRsa (B : Books) :
    OrFails g (thumbprintRsaObjects api E f g k B).val (thumbprintRsa E f k) := by
  cases api with
  | v1 => exact .inl rfl
  | v3 =>
    show OrFails g (withLabel _ _ _ _ _ _ B).val _
    rw [val_withLabel, thumbprintRsa_eq, thumbprintRsaBody]
    cases k.pkey with
    | none => exact .inl rfl
    | some pkey =>
      dsimp only
      rw [run_getPair]
      exact pairText_orMissing ..

theorem thumbprintEc_eq : thumbprintEc E f k =
    k.pkey.bind fun pkey => if E.ossl.bits pkey ≤ 0 then none
      else pairText E f (E.ossl.ecX pkey) (E.ossl.ecY pkey)
        ((E.ossl.bits pkey + 7) / 8).toNat (ecJson k.crv) := rfl

theorem val_thumbprintEc (B : Books) :
    OrFails g (thumbprintEcObjects api E f g k B).val (thumbprintEc E f k) := by
  rw [thumbprintEcObjects, val_withLabel, thumbprintEc_eq, thumbprintEcBody]
  cases k.pkey with
  | none => exact .inl rfl
  | some pkey =>
    dsimp only [Option.bind_some]
    split
    · exact .inl rfl
    cases api with
    | v3 =>
      dsimp only
      rw [run_getPair]
      exact pairText_orMissing ..
    | v1 => exact run_newPair ..

end Values

end NxeJwx
