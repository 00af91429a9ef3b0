/-
# Parsing a JWKS document

The JWKS half of `nxe_jwx_jwks.c`: the field readers, the four key parsers, the parser of one
JWK object, and the loop over the `keys` array.

The loop is `FillSlots.fill`: an entry is parsed into the first free slot, and the slot is
used up only when the entry gives a key.

A step of a parse that can fail for reasons outside the document is a `ParseStep` of an entry;
which of them do fail is an argument.
-/
import NxeJwx.Thumbprint
import NxeJwx.Lib.FillSlots

namespace NxeJwx

open FillSlots

/-- The steps of parsing one entry that can fail whatever the entry is: allocations, and the
OpenSSL calls that allocate. -/
inductive ParseStep where
  | dupKid
  | dupAlg
  | dupCrv
  | field (name : Bytes)
  | bignum
  | point
  | build
  | bio
  | thumbprint (s : ThumbprintStep)
  deriving DecidableEq, Repr

/-- Which of these steps fail, for one entry. -/
abbrev EntryFaults := ParseStep → Bool

/-- Which steps fail in the parse of a document: the JSON parser, the allocation of the
keyset, and the steps of each entry. -/
structure ParseFaults where
  root : Bool
  alloc : Bool
  entry : Nat → EntryFaults

/-- No step fails. -/
def noEntryFaults : EntryFaults := fun _ => false

/-- No step fails. -/
def noParseFaults : ParseFaults := ⟨false, false, fun _ => noEntryFaults⟩

variable {PKey : Type}

/-! ## 1. Fields -/

/-- `nxe_jwx_b64url_field`, with the fault of its buffer. -/
def b64urlField (E : Env PKey) (fault : Bool) (parent : Json) (name : Bytes) : Ret Bytes :=
  match parent.stringAt name with
  | none => .declined
  | some src =>
    if src.length = 0 then .declined
    else if fault then .error
    else
      match E.b64.decode src with
      | none => .error
      | some out => .ok out

/-- `nxe_jwx_string_field`; `none` is `NGX_DECLINED`. -/
def stringField (parent : Json) (name : Bytes) : Option Bytes := parent.stringAt name

/-- `nxe_jwx_dup_str_to_pool`, with the fault of its buffer. -/
def dupStrToPool (fault : Bool) (str : Bytes) : Option Bytes :=
  if str.length = 0 then some []
  else if fault then none
  else some str

/-! ## 2. One entry -/

/-- `nxe_jwx_parse_rsa`. -/
def parseRsa (E : Env PKey) (f : EntryFaults) (k : Key PKey) (jwk : Json) : Rc × Key PKey :=
  match b64urlField E (f (.field (ascii "n"))) jwk (ascii "n") with
  | .error => (.error, k)
  | .declined => (.declined, k)
  | .ok nBytes =>
    match b64urlField E (f (.field (ascii "e"))) jwk (ascii "e") with
    | .error => (.error, k)
    | .declined => (.declined, k)
    | .ok eBytes =>
      if f .bignum then (.error, k)
      else
        let nBn := BigEndian.ofBytes nBytes
        let eBn := BigEndian.ofBytes eBytes
        let nBits := BigEndian.bitLength nBn
        if nBits < minRsaBits ∨ nBits > maxRsaBits then (.declined, k)
        else
          match (if f .build then none else E.ossl.rsaFromData nBn eBn) with
          | none => (.error, { k with pkey := none })
          | some pkey => (.ok, { k with pkey := some pkey, kty := .rsa })

/-- `nxe_jwx_parse_ec`. -/
def parseEc (E : Env PKey) (f : EntryFaults) (k : Key PKey) (jwk : Json) : Rc × Key PKey :=
  if k.crv.length = 0 then (.declined, k)
  else
    match lookupEcCurve k.crv with
    | none => (.declined, k)
    | some curve =>
      match b64urlField E (f (.field (ascii "x"))) jwk (ascii "x") with
      | .error => (.error, k)
      | .declined => (.declined, k)
      | .ok xBytes =>
        if xBytes.length ≠ curve.coordLen then (.declined, k)
        else
          match b64urlField E (f (.field (ascii "y"))) jwk (ascii "y") with
          | .error => (.error, k)
          | .declined => (.declined, k)
          | .ok yBytes =>
            if yBytes.length ≠ curve.coordLen then (.declined, k)
            else if f .point then (.error, k)
            else
              let point := 4 :: xBytes ++ yBytes
              match (if f .build then none else E.ossl.ecFromData curve.osslName point) with
              | none => (.error, { k with pkey := none })
              | some pkey => (.ok, { k with pkey := some pkey, kty := .ec })

/-- `nxe_jwx_parse_okp`. -/
def parseOkp (E : Env PKey) (f : EntryFaults) (k : Key PKey) (jwk : Json) : Rc × Key PKey :=
  if k.crv.length = 0 then (.declined, k)
  else
    match lookupOkpCurve k.crv with
    | none => (.declined, k)
    | some curve =>
      match b64urlField E (f (.field (ascii "x"))) jwk (ascii "x") with
      | .error => (.error, k)
      | .declined => (.declined, k)
      | .ok xBytes =>
        if xBytes.length ≠ curve.keyLen then (.declined, k)
        else
          match (if f .build then none else E.ossl.newRawPublicKey curve.nid xBytes) with
          | none => (.error, { k with pkey := none })
          | some pkey => (.ok, { k with pkey := some pkey, kty := .okp })

/-- `nxe_jwx_parse_oct`. -/
def parseOct (E : Env PKey) (f : EntryFaults) (k : Key PKey) (jwk : Json) : Rc × Key PKey :=
  match b64urlField E (f (.field (ascii "k"))) jwk (ascii "k") with
  | .error => (.error, k)
  | .declined => (.declined, k)
  | .ok secret =>
    if secret.length = 0 then (.declined, { k with hmacSecret := secret })
    else (.ok, { k with hmacSecret := secret, kty := .oct })

/-- The switch over `kty` in `nxe_jwx_parse_one_key`. -/
def parseKty (E : Env PKey) (f : EntryFaults) (kty : Bytes) (k : Key PKey) (jwk : Json) :
    Rc × Key PKey :=
  if isName kty (ascii "RSA") then parseRsa E f k jwk
  else if isName kty (ascii "EC") then parseEc E f k jwk
  else if isName kty (ascii "OKP") then parseOkp E f k jwk
  else if E.haveHmac && isName kty (ascii "oct") then parseOct E f k jwk
  else (.declined, k)

/-- `nxe_jwx_parse_one_key`.  The slot it is given is zeroed first. -/
def parseOneKey (E : Env PKey) (f : EntryFaults) (_slot : Key PKey) (jwk : Json) :
    Rc × Key PKey :=
  match stringField jwk (ascii "kty") with
  | none => (.declined, .zero)
  | some kty =>
    if (stringField jwk (ascii "use")).any fun use => isName use (ascii "enc") then
      (.declined, .zero)
    else
      let kid := stringField jwk (ascii "kid")
      if kid.any fun kid => decide (kid.length = 0) then (.declined, .zero)
      else
        let k : Key PKey :=
          { Key.zero with
            kid := kid.getD []
            alg := (stringField jwk (ascii "alg")).getD []
            crv := (stringField jwk (ascii "crv")).getD [] }
        match dupStrToPool (f .dupKid) k.kid, dupStrToPool (f .dupAlg) k.alg,
          dupStrToPool (f .dupCrv) k.crv with
        | some kid, some alg, some crv =>
          let r := parseKty E f kty { k with kid := kid, alg := alg, crv := crv } jwk
          -- a thumbprint that cannot be computed is left empty, and the key is kept
          if r.1 = .ok then (.ok, (jwkThumbprint E (fun s => f (.thumbprint s)) r.2).2) else r
        | _, _, _ => (.error, k)

/-! ## 3. The document -/

/-- `nxe_jwx_jwks_alloc`: a keyset without keys. -/
def jwksAlloc (fault : Bool) (capacity : Nat) : Option (Slots (Key PKey)) :=
  if fault then none else some (.blank capacity .zero)

/-- One turn of the loop of `nxe_jwx_jwks_parse`.  The second component is the position of
the entry. -/
def jwksStep (E : Env PKey) (F : ParseFaults) (entry : Json × Nat) (slot : Key PKey) :
    Outcome × Key PKey :=
  if !entry.1.isObject then (.skip, slot)
  else
    match parseOneKey E (F.entry entry.2) slot entry.1 with
    | (.ok, k) => (.keep, k)
    | (.error, k) => (.abort, k)
    | (.declined, k) => (.skip, k)

/-- `nxe_jwx_jwks_parse`. -/
def jwksParse (E : Env PKey) (F : ParseFaults) (jwksJson : Option Bytes) (pool : Option Pool) :
    Option (Jwks PKey) :=
  match pool, jwksJson with
  | none, _ => none
  | some _, none => none
  | some _, some doc =>
    if doc.length = 0 ∨ doc.length > maxJwksSize then none
    else
      match (if F.root then none else E.json.parseUntrusted doc) with
      | none => none
      | some root =>
        if !root.isObject then none
        else
          match root.objectGet (ascii "keys") with
          | some (.array keys) =>
            if keys.length > maxJwksKeys then none
            else
              match jwksAlloc F.alloc (if keys.length ≠ 0 then keys.length else 1) with
              | none => none
              | some slots =>
                match fill (fun _ => false) (jwksStep E F) keys.zipIdx slots with
                | .done s => if s.count = 0 then none else some ⟨s.cells, s.count⟩
                | _ => none
          | _ => none

end NxeJwx
