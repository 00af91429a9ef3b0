/-
# Thumbprints

`nxe_jwx_thumbprint.c`: the text that is hashed for a key, put together per key type from
fixed pieces and base64url segments, and its SHA-256 in base64url.

The text is the canonical text of the key's material (`thumbprintText_eq_ok`), provided the
key's `crv` and handle agree on the curve (`KeyInv`), which is what both parsers establish.

`nxe_jwx_encode_b64url`, which `nxe_jwx_jws.c` shares with this file, is here too.
-/
import NxeJwx.Material

namespace NxeJwx

/-- The steps of a thumbprint that can fail for want of memory: the encoding of the first and
of the second component, the text, the digest itself, and its encoding. -/
inductive ThumbprintStep where
  | first
  | second
  | text
  | digest
  | out
  deriving DecidableEq, Repr

/-- Which of these steps fail. -/
abbrev ThumbprintFaults := ThumbprintStep → Bool

/-- No step fails. -/
def noThumbprintFaults : ThumbprintFaults := fun _ => false

variable {PKey : Type}

/-! ## 1. The code -/

/-- `nxe_jwx_encode_b64url`, with the fault of its buffer. -/
def encodeB64url (E : Env PKey) (fault : Bool) (src : Bytes) : Option Bytes :=
  if fault then none else some (E.b64.encode src)

/-- `nxe_jwx_bn_to_b64url`, with the fault of its two buffers. -/
def bnToB64url (E : Env PKey) (fault : Bool) (bn padLen : Nat) : Option Bytes :=
  let len := if padLen > 0 then padLen else BigEndian.byteLength bn
  if len = 0 then none
  else if padLen > 0 then
    -- `BN_bn2binpad` fails when the number does not fit
    if BigEndian.byteLength bn > len then none
    else encodeB64url E fault (BigEndian.toBytes len bn)
  else encodeB64url E fault (BigEndian.minimal bn)

/-- `nxe_jwx_thumbprint_rsa`. -/
def thumbprintRsa (E : Env PKey) (f : ThumbprintFaults) (k : Key PKey) : Option Bytes := do
  let pkey ← k.pkey
  let n ← E.ossl.rsaN pkey
  let e ← E.ossl.rsaE pkey
  let nB64 ← bnToB64url E (f .first) n 0
  let eB64 ← bnToB64url E (f .second) e 0
  if f .text then none
  else
    return ascii "\x7b\"e\":\"" ++ eB64 ++ ascii "\",\"kty\":\"RSA\",\"n\":\"" ++ nB64 ++
      ascii "\"\x7d"

/-- `nxe_jwx_thumbprint_ec`. -/
def thumbprintEc (E : Env PKey) (f : ThumbprintFaults) (k : Key PKey) : Option Bytes := do
  let pkey ← k.pkey
  let bits := E.ossl.bits pkey
  if bits ≤ 0 then none
  else
    let coordLen := ((bits + 7) / 8).toNat
    let x ← E.ossl.ecX pkey
    let y ← E.ossl.ecY pkey
    let xB64 ← bnToB64url E (f .first) x coordLen
    let yB64 ← bnToB64url E (f .second) y coordLen
    if f .text then none
    else
      return ascii "\x7b\"crv\":\"" ++ k.crv ++ ascii "\",\"kty\":\"EC\",\"x\":\"" ++ xB64 ++
        ascii "\",\"y\":\"" ++ yB64 ++ ascii "\"\x7d"

/-- `nxe_jwx_thumbprint_okp`. -/
def thumbprintOkp (E : Env PKey) (f : ThumbprintFaults) (k : Key PKey) : Option Bytes := do
  let pkey ← k.pkey
  let raw ← E.ossl.rawPublicKey pkey
  let xB64 ← encodeB64url E (f .first) raw
  if f .text then none
  else
    return ascii "\x7b\"crv\":\"" ++ k.crv ++ ascii "\",\"kty\":\"OKP\",\"x\":\"" ++ xB64 ++
      ascii "\"\x7d"

/-- `nxe_jwx_thumbprint_oct`. -/
def thumbprintOct (E : Env PKey) (f : ThumbprintFaults) (k : Key PKey) : Option Bytes := do
  let kB64 ← encodeB64url E (f .first) k.hmacSecret
  if f .text then none
  else return ascii "\x7b\"k\":\"" ++ kB64 ++ ascii "\",\"kty\":\"oct\"\x7d"

/-- A step that can only succeed or fail, as a return code. -/
def Ret.ofOption {α : Type} : Option α → Ret α
  | some a => .ok a
  | none => .error

/-- The switch of `nxe_jwx_jwk_thumbprint`: the text to hash. -/
def thumbprintText (E : Env PKey) (f : ThumbprintFaults) (k : Key PKey) : Ret Bytes :=
  match k.kty with
  | .rsa => .ofOption (thumbprintRsa E f k)
  | .ec => .ofOption (thumbprintEc E f k)
  | .okp => .ofOption (thumbprintOkp E f k)
  | .oct => if E.haveHmac then .ofOption (thumbprintOct E f k) else .declined
  | .unknown => .declined

/-- `nxe_jwx_jwk_thumbprint`: the return code, and the key with its thumbprint set. -/
def jwkThumbprint (E : Env PKey) (f : ThumbprintFaults) (key : Key PKey) : Rc × Key PKey :=
  let k := { key with thumbprint := [] }
  match thumbprintText E f k with
  | .declined => (.declined, k)
  | .error => (.error, k)
  | .ok json =>
    if !E.ossl.digestByName .sha256 then (.error, k)
    else
      match (if f .digest then none else E.ossl.digest .sha256 json) with
      | none => (.error, k)
      | some digest =>
        match encodeB64url E (f .out) digest with
        | none => (.error, k)
        | some thumbprint => (.ok, { k with thumbprint := thumbprint })

/-! ## 2. The fixed pieces make a JSON object -/

section Pieces

open CompactObject

theorem objectText_rsa (e n : Bytes) :
    ascii "\x7b\"e\":\"" ++ e ++ ascii "\",\"kty\":\"RSA\",\"n\":\"" ++ n ++ ascii "\"\x7d" =
      stringObject [(ascii "e", e), (ascii "kty", ascii "RSA"), (ascii "n", n)] := by
  have h1 : ascii "\x7b\"e\":\"" = 123 :: quote (ascii "e") ++ [58, 34] := by decide
  have h2 : ascii "\",\"kty\":\"RSA\",\"n\":\"" =
      34 :: 44 :: quote (ascii "kty") ++ 58 :: quote (ascii "RSA") ++ 44 :: quote (ascii "n") ++
        [58, 34] := by decide
  have h3 : ascii "\"\x7d" = [34, 125] := by decide
  rw [h1, h2, h3]
  simp [stringObject, object, member, rest, quote, List.append_assoc]

theorem objectText_ec (crv x y : Bytes) :
    ascii "\x7b\"crv\":\"" ++ crv ++ ascii "\",\"kty\":\"EC\",\"x\":\"" ++ x ++
        ascii "\",\"y\":\"" ++ y ++ ascii "\"\x7d" =
      stringObject [(ascii "crv", crv), (ascii "kty", ascii "EC"), (ascii "x", x),
        (ascii "y", y)] := by
  have h1 : ascii "\x7b\"crv\":\"" = 123 :: quote (ascii "crv") ++ [58, 34] := by decide
  have h2 : ascii "\",\"kty\":\"EC\",\"x\":\"" =
      34 :: 44 :: quote (ascii "kty") ++ 58 :: quote (ascii "EC") ++ 44 :: quote (ascii "x") ++
        [58, 34] := by decide
  have h3 : ascii "\",\"y\":\"" = 34 :: 44 :: quote (ascii "y") ++ [58, 34] := by decide
  have h4 : ascii "\"\x7d" = [34, 125] := by decide
  rw [h1, h2, h3, h4]
  simp [stringObject, object, member, rest, quote, List.append_assoc]

theorem objectText_okp (crv x : Bytes) :
    ascii "\x7b\"crv\":\"" ++ crv ++ ascii "\",\"kty\":\"OKP\",\"x\":\"" ++ x ++ ascii "\"\x7d" =
      stringObject [(ascii "crv", crv), (ascii "kty", ascii "OKP"), (ascii "x", x)] := by
  have h1 : ascii "\x7b\"crv\":\"" = 123 :: quote (ascii "crv") ++ [58, 34] := by decide
  have h2 : ascii "\",\"kty\":\"OKP\",\"x\":\"" =
      34 :: 44 :: quote (ascii "kty") ++ 58 :: quote (ascii "OKP") ++ 44 :: quote (ascii "x") ++
        [58, 34] := by decide
  have h3 : ascii "\"\x7d" = [34, 125] := by decide
  rw [h1, h2, h3]
  simp [stringObject, object, member, rest, quote, List.append_assoc]

theorem objectText_oct (k : Bytes) :
    ascii "\x7b\"k\":\"" ++ k ++ ascii "\",\"kty\":\"oct\"\x7d" =
      stringObject [(ascii "k", k), (ascii "kty", ascii "oct")] := by
  have h1 : ascii "\x7b\"k\":\"" = 123 :: quote (ascii "k") ++ [58, 34] := by decide
  have h2 : ascii "\",\"kty\":\"oct\"\x7d" =
      34 :: 44 :: quote (ascii "kty") ++ 58 :: quote (ascii "oct") ++ [125] := by decide
  rw [h1, h2]
  simp [stringObject, object, member, rest, quote, List.append_assoc]

end Pieces

/-! ## 3. The text of a key is the text of its material -/

/-- What both parsers establish of a key: its `kty`, handle and secret go together, and for a
curve key so do `crv`, the curve tables and the handle. -/
inductive KeyInv (O : Ossl PKey) (k : Key PKey) : Prop
  | rsa {p : PKey} (kty : k.kty = .rsa) (pkey : k.pkey = some p)
      (type : O.baseId p = .rsa ∨ O.baseId p = .rsaPss) (secret : k.hmacSecret = [])
  | ec {p : PKey} {c : EcCurve} (kty : k.kty = .ec) (pkey : k.pkey = some p)
      (type : O.baseId p = .ec) (row : lookupEcCurve k.crv = some c)
      (group : O.groupName p = some c.osslName) (secret : k.hmacSecret = [])
  | okp {p : PKey} {c : OkpCurve} (kty : k.kty = .okp) (pkey : k.pkey = some p)
      (row : lookupOkpCurve k.crv = some c) (type : O.baseId p = c.nid)
      (secret : k.hmacSecret = [])
  | oct (kty : k.kty = .oct) (pkey : k.pkey = none) (secret : k.hmacSecret ≠ [])

/-- `EVP_PKEY_bits` of an EC key is the bit length of the order of its group. -/
def Ossl.EcBits (O : Ossl PKey) : Prop :=
  ∀ row ∈ [(ascii "prime256v1", (256 : Int)), (ascii "secp384r1", 384), (ascii "secp521r1", 521),
    (ascii "secp256k1", 256)], ∀ p, O.groupName p = some row.1 → O.bits p = row.2

/-- SHA-256 has no collisions. -/
def Ossl.Sha256Injective (O : Ossl PKey) : Prop :=
  ∀ a b d, O.digest .sha256 a = some d → O.digest .sha256 b = some d → a = b

/-- A key handle built from components reports these components, its type and its size. -/
structure Ossl.KeyLaws (O : Ossl PKey) : Prop where
  rsa : O.RsaComponents
  group : O.EcGroup
  ec : O.EcComponents
  raw : O.RawComponents
  bits : O.EcBits

/-- So the coordinate width that the code computes from it is the width in the curve table. -/
theorem Ossl.EcBits.coordLen {O : Ossl PKey} (h : O.EcBits) {c : EcCurve} (hc : c ∈ ecCurves)
    {p : PKey} (hp : O.groupName p = some c.osslName) :
    0 < O.bits p ∧ ((O.bits p + 7) / 8).toNat = c.coordLen := by
  simp only [ecCurves, List.mem_cons, List.not_mem_nil, or_false] at hc
  rcases hc with rfl | rfl | rfl | rfl
  · rw [h (ascii "prime256v1", 256) (by simp) p hp]; decide
  · rw [h (ascii "secp384r1", 384) (by simp) p hp]; decide
  · rw [h (ascii "secp521r1", 521) (by simp) p hp]; decide
  · rw [h (ascii "secp256k1", 256) (by simp) p hp]; decide

theorem ecCurves_coordLen_pos : ∀ c ∈ ecCurves, 0 < c.coordLen := by decide

section Text

variable {E : Env PKey} {f : ThumbprintFaults} {k : Key PKey}

theorem encodeB64url_eq_some {fault : Bool} {src t : Bytes}
    (h : encodeB64url E fault src = some t) : t = E.b64.encode src := by
  unfold encodeB64url at h
  split at h
  · exact absurd h (by simp)
  · exact (Option.some.inj h).symm

/-- Without a width the number is encoded at its minimal length, and is not zero. -/
theorem bnToB64url_minimal {fault : Bool} {bn : Nat} {t : Bytes}
    (h : bnToB64url E fault bn 0 = some t) : t = E.b64.encode (BigEndian.minimal bn) := by
  simp only [bnToB64url, gt_iff_lt, Nat.lt_irrefl, if_false] at h
  split at h
  · exact absurd h (by simp)
  · exact encodeB64url_eq_some h

/-- With a width the number is encoded at that width, and fits it. -/
theorem bnToB64url_padded {fault : Bool} {bn padLen : Nat} {t : Bytes} (hp : 0 < padLen)
    (h : bnToB64url E fault bn padLen = some t) :
    t = E.b64.encode (BigEndian.toBytes padLen bn) ∧ bn < 256 ^ padLen := by
  simp only [bnToB64url, gt_iff_lt, if_pos hp] at h
  split at h
  · exact absurd h (by simp)
  split at h
  · exact absurd h (by simp)
  next hle =>
  exact ⟨encodeB64url_eq_some h, BigEndian.byteLength_le_iff.mp (Nat.le_of_not_lt hle)⟩

theorem Ret.ofOption_eq_ok {α : Type} {o : Option α} {a : α} :
    Ret.ofOption o = .ok a ↔ o = some a := by
  cases o <;> simp [Ret.ofOption]

/-- The text hashed for a key is the canonical text of its material, which fits its curve. -/
theorem thumbprintText_eq_ok (hbits : E.ossl.EcBits) (hk : KeyInv E.ossl k) {json : Bytes}
    (h : thumbprintText E f k = .ok json) :
    ∃ m, keyMaterial E.ossl k = some m ∧ m.Fits ∧ json = m.text E.b64 := by
  cases hk with
  | @rsa p kty pkey =>
    simp only [thumbprintText, kty, Ret.ofOption_eq_ok, thumbprintRsa, pkey,
      Option.bind_eq_bind, Option.bind_eq_some_iff, Option.some.injEq, exists_eq_left',
      Option.pure_def, Option.ite_none_left_eq_some] at h
    obtain ⟨n, hn, e, he, nB64, hnB64, eB64, heB64, -, rfl⟩ := h
    refine ⟨.rsa n e, by simp [keyMaterial, kty, pkey, hn, he], trivial, ?_⟩
    rw [bnToB64url_minimal hnB64, bnToB64url_minimal heB64, objectText_rsa]
    rfl
  | @ec p c kty pkey _ row group =>
    obtain ⟨hpos, hlen⟩ := hbits.coordLen (lookupEcCurve_eq_some_iff.mp row).1 group
    have hc := lookupEcCurve_eq_some_iff.mp row
    simp only [thumbprintText, kty, Ret.ofOption_eq_ok, thumbprintEc, pkey,
      Option.bind_eq_bind, Option.bind_eq_some_iff, Option.some.injEq, exists_eq_left',
      Option.pure_def, Option.ite_none_left_eq_some, hlen] at h
    obtain ⟨-, x, hx, y, hy, xB64, hxB64, yB64, hyB64, -, rfl⟩ := h
    have hcp := ecCurves_coordLen_pos c hc.1
    obtain ⟨rfl, hxlt⟩ := bnToB64url_padded hcp hxB64
    obtain ⟨rfl, hylt⟩ := bnToB64url_padded hcp hyB64
    refine ⟨.ec c x y, by simp [keyMaterial, kty, pkey, row, hx, hy], ⟨hc.1, hxlt, hylt⟩,
      ?_⟩
    rw [objectText_ec, ← hc.2]
    rfl
  | @okp p c kty pkey row =>
    have hc := lookupOkpCurve_eq_some_iff.mp row
    simp only [thumbprintText, kty, Ret.ofOption_eq_ok, thumbprintOkp, pkey,
      Option.bind_eq_bind, Option.bind_eq_some_iff, Option.some.injEq, exists_eq_left',
      Option.pure_def, Option.ite_none_left_eq_some] at h
    obtain ⟨x, hx, xB64, hxB64, -, rfl⟩ := h
    refine ⟨.okp c x, by simp [keyMaterial, kty, pkey, row, hx], hc.1, ?_⟩
    rw [encodeB64url_eq_some hxB64, objectText_okp, ← hc.2]
    rfl
  | oct kty =>
    simp only [thumbprintText, kty] at h
    split at h
    · simp only [Ret.ofOption_eq_ok, thumbprintOct, Option.bind_eq_bind,
        Option.bind_eq_some_iff, Option.pure_def, Option.ite_none_left_eq_some,
        Option.some.injEq] at h
      obtain ⟨kB64, hkB64, -, rfl⟩ := h
      refine ⟨.oct k.hmacSecret, by simp [keyMaterial, kty], trivial, ?_⟩
      rw [encodeB64url_eq_some hkB64, objectText_oct]
      rfl
    · exact absurd h (by simp)

/-- The thumbprint of a key is missing, or the encoded SHA-256 of the text hashed for it. -/
def Thumbprinted (E : Env PKey) (k : Key PKey) : Prop :=
  k.thumbprint ≠ [] → ∃ f json digest, thumbprintText E f k = .ok json ∧
    E.ossl.digest .sha256 json = some digest ∧ k.thumbprint = E.b64.encode digest

/-- Computing a thumbprint changes the thumbprint only. -/
theorem jwkThumbprint_eq (E : Env PKey) (f : ThumbprintFaults) (k : Key PKey) :
    ∃ tp, (jwkThumbprint E f k).2 = { k with thumbprint := tp } ∧
      Thumbprinted E { k with thumbprint := tp } := by
  have htext : ∀ tp, thumbprintText E f { k with thumbprint := tp } = thumbprintText E f k :=
    fun _ => rfl
  unfold jwkThumbprint
  simp only [htext]
  split
  · exact ⟨[], rfl, fun h => absurd rfl h⟩
  · exact ⟨[], rfl, fun h => absurd rfl h⟩
  next json hjson =>
  split
  · exact ⟨[], rfl, fun h => absurd rfl h⟩
  split
  · exact ⟨[], rfl, fun h => absurd rfl h⟩
  next digest hdigest =>
  split
  · exact ⟨[], rfl, fun h => absurd rfl h⟩
  next tp htp =>
  refine ⟨tp, rfl, fun _ => ⟨f, json, digest, (htext tp).trans hjson, ?_,
    encodeB64url_eq_some htp⟩⟩
  split at hdigest
  · exact absurd hdigest (by simp)
  · exact hdigest

end Text

end NxeJwx
