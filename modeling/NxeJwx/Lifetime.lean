/-
# Handles and secrets over the life of a keyset

The parsers, the cleanup handler and `nxe_jwx_jwks_free` once more, with what they do to the
things that outlive a call: the JSON root and the `EVP_PKEY`s, which must be released, and the
buffers that held the octets of a secret, which must be cleansed.  A handle and a buffer are
named by the entry they were made for.

A slot knows what its pointers point to (`Slot`), and a call that returns `NULL` may leave a
keyset registered with the pool (`Parsed`).  Apart from that each function is the one of the
earlier modules: `val_jwksParseLogged` and `val_keyvalParseLogged` say that parsing gives the same
keyset.
-/
import NxeJwx.Keyval
import NxeJwx.Lib.Ledger
import NxeJwx.Lib.TracedFill

namespace NxeJwx

open FillSlots Traced

variable {PKey : Type}

/-! ## 1. Events -/

/-- What must be released: the root of the JSON document, and the handle made for an entry. -/
inductive Resource where
  | root
  | pkey (entry : Nat)
  deriving DecidableEq, Repr

/-- The buffers that hold a secret in some form: its octets, their base64url, and the text of the
key that is hashed. -/
inductive Buffer where
  | secret (entry : Nat)
  | kB64 (entry : Nat)
  | json (entry : Nat)
  deriving DecidableEq, Repr

/-- A resource is acquired or released, octets get into a buffer, or `OPENSSL_cleanse` is called
on one. -/
inductive Event where
  | ledger (e : Ledger.Entry Resource)
  | hold (b : Buffer) (octets : Bytes)
  | cleanse (b : Buffer) (len : Nat)
  deriving DecidableEq, Repr

def acquire (r : Resource) : Traced Event PUnit := emit (.ledger (.acquire r))

def release (r : Resource) : Traced Event PUnit := emit (.ledger (.release r))

/-- What the linked libraries leave behind when they fail: whether the construction of a handle
fails with an `EVP_PKEY` already made, which the code frees (OpenSSL 1.1.x), and what a decoder
that rejects its input has written by then. -/
structure Leftovers where
  pkey : Nat → Bool
  decoded : Bytes → Bytes

/-- Nothing is left behind. -/
def noLeftovers : Leftovers := ⟨fun _ => false, fun _ => []⟩

/-- A key slot, and the entries that its handle and the buffer of its secret were made for. -/
structure Slot (PKey : Type) where
  key : Key PKey
  pkeyOf : Option Nat
  secretOf : Option Nat

/-- A slot without handle and secret. -/
def Slot.ofKey (key : Key PKey) : Slot PKey := ⟨key, none, none⟩

/-- A zeroed slot. -/
def Slot.zero : Slot PKey := .ofKey .zero

/-- The assignment of a handle that was made for an entry, or of `NULL`. -/
def Slot.setPkey (k : Slot PKey) (i : Nat) (pkey : Option PKey) : Slot PKey :=
  { k with key := { k.key with pkey := pkey }, pkeyOf := pkey.map fun _ => i }

/-- The assignment of the key type. -/
def Slot.setKty (k : Slot PKey) (kty : Kty) : Slot PKey :=
  { k with key := { k.key with kty := kty } }

/-! ## 2. One entry of a JWKS -/

/-- `nxe_jwx_b64url_field` on the secret of an entry. -/
def b64urlFieldLogged (E : Env PKey) (L : Leftovers) (fault : Bool) (i : Nat) (parent : Json)
    (name : Bytes) : Traced Event (Ret Bytes) :=
  match parent.stringAt name with
  | none => return .declined
  | some src =>
    if src.length = 0 then return .declined
    else if fault then return .error
    else
      match E.b64.decode src with
      | none => do
        emit (.hold (.secret i) (L.decoded src))
        return .error
      | some out => do
        emit (.hold (.secret i) out)
        return .ok out

/-- `nxe_jwx_build_rsa_key` and its siblings, from what OpenSSL answers. -/
def buildLogged (half : Bool) (i : Nat) (made : Option PKey) : Traced Event (Option PKey) :=
  match made with
  | some pkey => do
    acquire (.pkey i)
    return some pkey
  | none =>
    if half then do
      acquire (.pkey i)
      release (.pkey i)
      return none
    else return none

/-- `nxe_jwx_parse_rsa`. -/
def parseRsaLogged (E : Env PKey) (L : Leftovers) (f : EntryFaults) (i : Nat) (k : Slot PKey)
    (jwk : Json) : Traced Event (Rc × Slot PKey) :=
  match b64urlField E (f (.field (ascii "n"))) jwk (ascii "n") with
  | .error => return (.error, k)
  | .declined => return (.declined, k)
  | .ok nBytes =>
    match b64urlField E (f (.field (ascii "e"))) jwk (ascii "e") with
    | .error => return (.error, k)
    | .declined => return (.declined, k)
    | .ok eBytes =>
      if f .bignum then return (.error, k)
      else
        let nBn := BigEndian.ofBytes nBytes
        let eBn := BigEndian.ofBytes eBytes
        let nBits := BigEndian.bitLength nBn
        if nBits < minRsaBits ∨ nBits > maxRsaBits then return (.declined, k)
        else do
          let pkey ← buildLogged (L.pkey i) i
            (if f .build then none else E.ossl.rsaFromData nBn eBn)
          let k := k.setPkey i pkey
          if pkey.isNone then return (.error, k) else return (.ok, k.setKty .rsa)

/-- `nxe_jwx_parse_ec`. -/
def parseEcLogged (E : Env PKey) (L : Leftovers) (f : EntryFaults) (i : Nat) (k : Slot PKey)
    (jwk : Json) : Traced Event (Rc × Slot PKey) :=
  if k.key.crv.length = 0 then return (.declined, k)
  else
    match lookupEcCurve k.key.crv with
    | none => return (.declined, k)
    | some curve =>
      match b64urlField E (f (.field (ascii "x"))) jwk (ascii "x") with
      | .error => return (.error, k)
      | .declined => return (.declined, k)
      | .ok xBytes =>
        if xBytes.length ≠ curve.coordLen then return (.declined, k)
        else
          match b64urlField E (f (.field (ascii "y"))) jwk (ascii "y") with
          | .error => return (.error, k)
          | .declined => return (.declined, k)
          | .ok yBytes =>
            if yBytes.length ≠ curve.coordLen then return (.declined, k)
            else if f .point then return (.error, k)
            else do
              let point := 4 :: xBytes ++ yBytes
              let pkey ← buildLogged (L.pkey i) i
                (if f .build then none else E.ossl.ecFromData curve.osslName point)
              let k := k.setPkey i pkey
              if pkey.isNone then return (.error, k) else return (.ok, k.setKty .ec)

/-- `nxe_jwx_parse_okp`.  `EVP_PKEY_new_raw_public_key` makes a handle or fails. -/
def parseOkpLogged (E : Env PKey) (f : EntryFaults) (i : Nat) (k : Slot PKey) (jwk : Json) :
    Traced Event (Rc × Slot PKey) :=
  if k.key.crv.length = 0 then return (.declined, k)
  else
    match lookupOkpCurve k.key.crv with
    | none => return (.declined, k)
    | some curve =>
      match b64urlField E (f (.field (ascii "x"))) jwk (ascii "x") with
      | .error => return (.error, k)
      | .declined => return (.declined, k)
      | .ok xBytes =>
        if xBytes.length ≠ curve.keyLen then return (.declined, k)
        else do
          let pkey ← buildLogged false i
            (if f .build then none else E.ossl.newRawPublicKey curve.nid xBytes)
          let k := k.setPkey i pkey
          if pkey.isNone then return (.error, k) else return (.ok, k.setKty .okp)

/-- `nxe_jwx_parse_oct`. -/
def parseOctLogged (E : Env PKey) (L : Leftovers) (f : EntryFaults) (i : Nat) (k : Slot PKey)
    (jwk : Json) : Traced Event (Rc × Slot PKey) := do
  match ← b64urlFieldLogged E L (f (.field (ascii "k"))) i jwk (ascii "k") with
  | .error => return (.error, k)
  | .declined => return (.declined, k)
  | .ok secret =>
    let k : Slot PKey := { k with key := { k.key with hmacSecret := secret }, secretOf := some i }
    if secret.length = 0 then return (.declined, k) else return (.ok, k.setKty .oct)

/-- The switch over `kty` in `nxe_jwx_parse_one_key`. -/
def parseKtyLogged (E : Env PKey) (L : Leftovers) (f : EntryFaults) (i : Nat) (kty : Bytes)
    (k : Slot PKey) (jwk : Json) : Traced Event (Rc × Slot PKey) :=
  if isName kty (ascii "RSA") then parseRsaLogged E L f i k jwk
  else if isName kty (ascii "EC") then parseEcLogged E L f i k jwk
  else if isName kty (ascii "OKP") then parseOkpLogged E f i k jwk
  else if E.haveHmac && isName kty (ascii "oct") then parseOctLogged E L f i k jwk
  else return (.declined, k)

/-- `nxe_jwx_thumbprint_oct`: the encoding is cleansed once it is part of the text. -/
def thumbprintOctLogged (E : Env PKey) (f : ThumbprintFaults) (i : Nat) (k : Key PKey) :
    Traced Event (Option Bytes) :=
  match encodeB64url E (f .first) k.hmacSecret with
  | none => return none
  | some kB64 => do
    emit (.hold (.kB64 i) kB64)
    if f .text then return none
    else
      let json := ascii "\x7b\"k\":\"" ++ kB64 ++ ascii "\",\"kty\":\"oct\"\x7d"
      emit (.hold (.json i) json)
      emit (.cleanse (.kB64 i) kB64.length)
      return some json

/-- The switch of `nxe_jwx_jwk_thumbprint`.  The text of a public key holds no secret. -/
def thumbprintTextLogged (E : Env PKey) (f : ThumbprintFaults) (i : Nat) (k : Key PKey) :
    Traced Event (Ret Bytes) :=
  match k.kty with
  | .oct =>
    if E.haveHmac then do return .ofOption (← thumbprintOctLogged E f i k) else return .declined
  | _ => return thumbprintText E f k

/-- The text of a secret is cleansed once its digest is taken. -/
def cleanseText (E : Env PKey) (kty : Kty) (i : Nat) (json : Bytes) : Traced Event PUnit :=
  if E.haveHmac && kty == .oct then emit (.cleanse (.json i) json.length) else return ⟨⟩

/-- `nxe_jwx_jwk_thumbprint`. -/
def jwkThumbprintLogged (E : Env PKey) (f : ThumbprintFaults) (i : Nat) (key : Key PKey) :
    Traced Event (Rc × Key PKey) := do
  let k := { key with thumbprint := [] }
  match ← thumbprintTextLogged E f i k with
  | .declined => return (.declined, k)
  | .error => return (.error, k)
  | .ok json =>
    if !E.ossl.digestByName .sha256 then return (.error, k)
    else
      match (if f .digest then none else E.ossl.digest .sha256 json) with
      | none => return (.error, k)
      | some digest => do
        cleanseText E k.kty i json
        match encodeB64url E (f .out) digest with
        | none => return (.error, k)
        | some thumbprint => return (.ok, { k with thumbprint := thumbprint })

/-- `nxe_jwx_parse_one_key`. -/
def parseOneKeyLogged (E : Env PKey) (L : Leftovers) (f : EntryFaults) (i : Nat)
    (_slot : Slot PKey) (jwk : Json) : Traced Event (Rc × Slot PKey) :=
  match stringField jwk (ascii "kty") with
  | none => return (.declined, .zero)
  | some kty =>
    if (stringField jwk (ascii "use")).any fun use => isName use (ascii "enc") then
      return (.declined, .zero)
    else
      let kid := stringField jwk (ascii "kid")
      if kid.any fun kid => decide (kid.length = 0) then return (.declined, .zero)
      else
        let k : Key PKey :=
          { Key.zero with
            kid := kid.getD []
            alg := (stringField jwk (ascii "alg")).getD []
            crv := (stringField jwk (ascii "crv")).getD [] }
        match dupStrToPool (f .dupKid) k.kid, dupStrToPool (f .dupAlg) k.alg,
          dupStrToPool (f .dupCrv) k.crv with
        | some kid, some alg, some crv => do
          let r ← parseKtyLogged E L f i kty
            (.ofKey { k with kid := kid, alg := alg, crv := crv }) jwk
          if r.1 = .ok then
            let t ← jwkThumbprintLogged E (fun s => f (.thumbprint s)) i r.2.key
            return (.ok, { r.2 with key := t.2 })
          else return r
        | _, _, _ => return (.error, .ofKey k)

/-! ## 3. The two documents -/

/-- What parsing leaves: the keyset that is registered with the pool, if it got that far, and
whether the call returned it. -/
structure Parsed (PKey : Type) where
  keyset : Option (Slots (Slot PKey))
  returned : Bool

/-- The call failed before it allocated a keyset. -/
def Parsed.nothing : Parsed PKey := ⟨none, false⟩

/-- The keyset as it is returned. -/
def Parsed.jwks (p : Parsed PKey) : Option (Jwks PKey) :=
  if p.returned then p.keyset.map fun s => ⟨s.cells.map Slot.key, s.count⟩ else none

/-- Leave with the root released. -/
def leave (p : Parsed PKey) : Traced Event (Parsed PKey) := do
  release .root
  return p

/-- The end of either parser, after its loop. -/
def finish (run : Run (Slot PKey)) : Traced Event (Parsed PKey) :=
  match run with
  | .done s => leave ⟨some s, decide (s.count ≠ 0)⟩
  | .aborted s => leave ⟨some s, false⟩
  | .overrun => return .nothing

/-- `nxe_jwx_jwks_alloc`, which registers the cleanup handler last. -/
def jwksAllocLogged (fault : Bool) (capacity : Nat) : Option (Slots (Slot PKey)) :=
  if fault then none else some (.blank capacity .zero)

/-- One turn of the loop of `nxe_jwx_jwks_parse`. -/
def jwksStepLogged (E : Env PKey) (L : Leftovers) (F : ParseFaults) (entry : Json × Nat)
    (slot : Slot PKey) : Traced Event (Outcome × Slot PKey) :=
  if !entry.1.isObject then return (.skip, slot)
  else do
    match ← parseOneKeyLogged E L (F.entry entry.2) entry.2 slot entry.1 with
    | (.ok, k) => return (.keep, k)
    | (.error, k) => return (.abort, k)
    | (.declined, k) => return (.skip, k)

/-- `nxe_jwx_jwks_parse`. -/
def jwksParseLogged (E : Env PKey) (L : Leftovers) (F : ParseFaults) (jwksJson : Option Bytes)
    (pool : Option Pool) : Traced Event (Parsed PKey) :=
  match pool, jwksJson with
  | none, _ => return .nothing
  | some _, none => return .nothing
  | some _, some doc =>
    if doc.length = 0 ∨ doc.length > maxJwksSize then return .nothing
    else
      match (if F.root then none else E.json.parseUntrusted doc) with
      | none => return .nothing
      | some root => do
        acquire .root
        if !root.isObject then leave .nothing
        else
          match root.objectGet (ascii "keys") with
          | some (.array keys) =>
            if keys.length > maxJwksKeys then leave .nothing
            else
              match jwksAllocLogged F.alloc (if keys.length ≠ 0 then keys.length else 1) with
              | none => leave .nothing
              | some slots => do
                finish (← fillTraced (fun _ => false) (jwksStepLogged E L F) keys.zipIdx slots)
          | _ => leave .nothing

/-- One turn of the loop of `nxe_jwx_jwks_parse_keyval`: the handle is local until the slot gets
it, and is freed where the member is given up. -/
def keyvalStepLogged (E : Env PKey) (F : ParseFaults) (entry : (Bytes × Json) × Nat)
    (slot : Slot PKey) : Traced Event (Outcome × Slot PKey) :=
  let f := F.entry entry.2
  let i := entry.2
  let kid := entry.1.1
  if kid.length = 0 then return (.skip, slot)
  else
    match entry.1.2.stringOf with
    | none => return (.skip, slot)
    | some val =>
      if val.length = 0 then return (.skip, slot)
      else
        match loadPemPubkey E (f .bio) val with
        | none => return (.skip, slot)
        | some pkey => do
          acquire (.pkey i)
          match keyvalCrv E.ossl pkey slot.key with
          | none => do
            release (.pkey i)
            return (.skip, slot)
          | some k =>
            let slot := (({ slot with key := k } : Slot PKey).setPkey i (some pkey)).setKty
              (ktyFromPkey E.ossl pkey)
            match dupStrToPool (f .dupKid) kid with
            | none => do
              release (.pkey i)
              return (.abort, slot.setPkey i none)
            | some kid => do
              let t ← jwkThumbprintLogged E (fun s => f (.thumbprint s)) i
                { slot.key with kid := kid }
              return (.keep, { slot with key := t.2 })

/-- `nxe_jwx_jwks_parse_keyval`. -/
def keyvalParseLogged (E : Env PKey) (F : ParseFaults) (keyvalJson : Option Bytes)
    (pool : Option Pool) : Traced Event (Parsed PKey) :=
  match pool, keyvalJson with
  | none, _ => return .nothing
  | some _, none => return .nothing
  | some _, some doc =>
    if doc.length = 0 ∨ doc.length > maxJwksSize then return .nothing
    else
      match (if F.root then none else E.json.parseUntrusted doc) with
      | none => return .nothing
      | some root => do
        acquire .root
        match root with
        | .object members =>
          if members.length = 0 then leave .nothing
          else if members.length > maxJwksKeys then leave .nothing
          else
            match jwksAllocLogged F.alloc members.length with
            | none => leave .nothing
            | some slots => do
              finish (← fillTraced (fun count => decide (count ≥ maxJwksKeys))
                (keyvalStepLogged E F) members.zipIdx slots)
        | _ => leave .nothing

/-! ## 4. Release -/

/-- The handle of a slot is freed, and its pointer cleared. -/
def freePkey (k : Slot PKey) : Traced Event (Slot PKey) :=
  match k.pkeyOf with
  | none => return k
  | some i => do
    release (.pkey i)
    return k.setPkey i none

/-- The secret of a slot is cleansed, and its length cleared. -/
def cleanseSecret (haveHmac : Bool) (k : Slot PKey) : Traced Event (Slot PKey) :=
  match k.secretOf with
  | none => return k
  | some i =>
    if haveHmac && decide (k.key.hmacSecret.length > 0) then do
      emit (.cleanse (.secret i) k.key.hmacSecret.length)
      return { k with key := { k.key with hmacSecret := [] } }
    else return k

/-- One turn of the loop of `nxe_jwx_jwks_cleanup`. -/
def cleanupSlot (haveHmac : Bool) (k : Slot PKey) : Traced Event (Slot PKey) := do
  let k ← freePkey k
  cleanseSecret haveHmac k

/-- The loop of `nxe_jwx_jwks_cleanup`, over the counted slots. -/
def cleanupSlots (haveHmac : Bool) : List (Slot PKey) → Traced Event (List (Slot PKey))
  | [] => return []
  | k :: ks => do
    let k ← cleanupSlot haveHmac k
    let ks ← cleanupSlots haveHmac ks
    return k :: ks

/-- `nxe_jwx_jwks_cleanup`. -/
def jwksCleanup (haveHmac : Bool) (s : Slots (Slot PKey)) : Traced Event (Slots (Slot PKey)) := do
  let used ← cleanupSlots haveHmac (s.cells.take s.count)
  return { s with cells := used ++ s.cells.drop s.count }

/-- A keyset in the pool, and whether its cleanup handler is armed. -/
structure Registered (PKey : Type) where
  keyset : Slots (Slot PKey)
  armed : Bool

/-- `nxe_jwx_jwks_free` on a keyset that is there. -/
def jwksFree (haveHmac : Bool) (r : Registered PKey) : Traced Event (Registered PKey) := do
  let s ← jwksCleanup haveHmac r.keyset
  return ⟨s, false⟩

/-- `ngx_destroy_pool`, which runs the handlers that are armed. -/
def destroyPool (haveHmac : Bool) (r : Registered PKey) : Traced Event (Registered PKey) :=
  if r.armed then do
    let s ← jwksCleanup haveHmac r.keyset
    return ⟨s, r.armed⟩
  else return r

/-- `n` calls of `nxe_jwx_jwks_free`. -/
def jwksFreeTimes (haveHmac : Bool) : Nat → Registered PKey → Traced Event (Registered PKey)
  | 0, r => return r
  | n + 1, r => do
    let r ← jwksFree haveHmac r
    jwksFreeTimes haveHmac n r

/-- The pool is destroyed, or it is still there. -/
def poolEnd (haveHmac destroyed : Bool) (r : Registered PKey) : Traced Event (Registered PKey) :=
  if destroyed then destroyPool haveHmac r else return r

/-- What comes after parsing: `n` calls of `nxe_jwx_jwks_free` on what the parser returned, which
do nothing when that is `NULL`, and then perhaps the end of the pool. -/
def afterwards (haveHmac : Bool) (n : Nat) (destroyed : Bool) (p : Parsed PKey) :
    Traced Event PUnit :=
  match p.keyset with
  | none => return ⟨⟩
  | some s => do
    let r ← jwksFreeTimes haveHmac (if p.returned then n else 0) ⟨s, true⟩
    let _ ← poolEnd haveHmac destroyed r
    return ⟨⟩

/-- A whole life: parsing, and what comes after it. -/
def life (haveHmac : Bool) (n : Nat) (destroyed : Bool) (parsed : Traced Event (Parsed PKey)) :
    List Event :=
  (parsed >>= afterwards haveHmac n destroyed).events

end NxeJwx
