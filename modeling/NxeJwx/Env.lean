/-
# What the library calls: OpenSSL, nxe-json and the base64url codec

None of the three is part of the repository (nxe-json is a submodule, OpenSSL and the nginx
core are linked), so they are parameters.  `Ossl` lists the OpenSSL calls the code makes, one
field per call, over an arbitrary type of key handles; `NxeJson` and `Base64url` do the same
for the other two.  A field returns `none` where the call can fail.

What the code relies on is stated next to each parameter as a named property (`Ossl.EcGroup`
and so on).  No definition of the model uses these properties: a result that needs one says
so.
-/
import NxeJwx.Basic
import NxeJwx.Lib.BigEndian
import NxeJwx.Lib.CompactObject

namespace NxeJwx

/-! ## 1. OpenSSL -/

/-- The digests the algorithm table names. -/
inductive Digest where
  | sha256
  | sha384
  | sha512
  deriving DecidableEq, Repr

/-- `EVP_PKEY_base_id`. -/
inductive PkeyId where
  | rsa
  | rsaPss
  | ec
  | ed25519
  | ed448
  | other (nid : Nat)
  deriving DecidableEq, Repr

/-- RSA padding of a signature context. -/
inductive RsaPadding where
  | pkcs1
  | pss
  deriving DecidableEq, Repr

/-- PSS salt length of a signature context: the digest's length, or something else. -/
inductive PssSaltlen where
  | digest
  | other (len : Nat)
  deriving DecidableEq, Repr

/-- The parameters of a signature context that the code sets. -/
structure SigParams where
  padding : RsaPadding
  saltlen : PssSaltlen
  mgf1 : Option Digest
  deriving DecidableEq, Repr

/-- The OpenSSL calls, over a type of `EVP_PKEY` handles. -/
structure Ossl (PKey : Type) where
  /-- `EVP_PKEY_base_id` -/
  baseId : PKey → PkeyId
  /-- `EVP_PKEY_get_group_name` / `OSSL_PKEY_PARAM_GROUP_NAME` / `OBJ_nid2sn` -/
  groupName : PKey → Option Bytes
  /-- `EVP_PKEY_bits` -/
  bits : PKey → Int
  /-- `OSSL_PKEY_PARAM_RSA_N` -/
  rsaN : PKey → Option Nat
  /-- `OSSL_PKEY_PARAM_RSA_E` -/
  rsaE : PKey → Option Nat
  /-- `OSSL_PKEY_PARAM_EC_PUB_X` -/
  ecX : PKey → Option Nat
  /-- `OSSL_PKEY_PARAM_EC_PUB_Y` -/
  ecY : PKey → Option Nat
  /-- `EVP_PKEY_get_raw_public_key` into a 64-byte buffer -/
  rawPublicKey : PKey → Option Bytes
  /-- `EVP_PKEY_fromdata` on RSA `n`, `e` -/
  rsaFromData : Nat → Nat → Option PKey
  /-- `EVP_PKEY_fromdata` on an EC group name and a SEC1 point -/
  ecFromData : Bytes → Bytes → Option PKey
  /-- `EVP_PKEY_new_raw_public_key` -/
  newRawPublicKey : PkeyId → Bytes → Option PKey
  /-- `PEM_read_bio_PUBKEY` -/
  pemReadPubkey : Bytes → Option PKey
  /-- `PEM_read_bio_PrivateKey` -/
  pemReadPrivateKey : Bytes → Option PKey
  /-- `EVP_get_digestbyname` returned a digest -/
  digestByName : Digest → Bool
  /-- `EVP_DigestVerifyInit`: the parameters of the fresh context -/
  digestVerifyInit : PKey → Option Digest → Option SigParams
  /-- `EVP_DigestSignInit` -/
  digestSignInit : PKey → Option Digest → Option SigParams
  /-- `EVP_PKEY_CTX_set_rsa_padding` -/
  setRsaPadding : PKey → RsaPadding → SigParams → Option SigParams
  /-- `EVP_PKEY_CTX_set_rsa_pss_saltlen` -/
  setRsaPssSaltlen : PKey → PssSaltlen → SigParams → Option SigParams
  /-- `EVP_PKEY_CTX_set_rsa_mgf1_md` -/
  setRsaMgf1Md : PKey → Option Digest → SigParams → Option SigParams
  /-- `EVP_DigestVerify(ctx, sig, tbs)` -/
  digestVerify : PKey → Option Digest → SigParams → Bytes → Bytes → Int
  /-- `EVP_DigestSign(ctx, tbs)`, both calls -/
  digestSign : PKey → Option Digest → SigParams → Bytes → Option Bytes
  /-- `HMAC` -/
  hmac : Digest → Bytes → Bytes → Option Bytes
  /-- `EVP_Digest` -/
  digest : Digest → Bytes → Option Bytes
  /-- `ECDSA_SIG_set0` and `i2d_ECDSA_SIG` on a pair `(r, s)`, buffers included -/
  i2dEcdsaSig : Nat → Nat → Option Bytes
  /-- `d2i_ECDSA_SIG` and `ECDSA_SIG_get0` -/
  d2iEcdsaSig : Bytes → Option (Nat × Nat)

namespace Ossl

variable {PKey : Type}

/-- An EC key built on a group reports that group. -/
def EcGroup (O : Ossl PKey) : Prop :=
  ∀ group point pkey, O.ecFromData group point = some pkey → O.groupName pkey = some group

/-- A key built from RSA components is a plain RSA key with these components. -/
def RsaComponents (O : Ossl PKey) : Prop :=
  ∀ n e pkey, O.rsaFromData n e = some pkey →
    O.baseId pkey = .rsa ∧ O.rsaN pkey = some n ∧ O.rsaE pkey = some e

/-- An EC key built from an uncompressed point is an EC key, and its affine coordinates are
the two halves of the point. -/
def EcComponents (O : Ossl PKey) : Prop :=
  ∀ group x y pkey, x.length = y.length → O.ecFromData group (4 :: x ++ y) = some pkey →
    O.baseId pkey = .ec ∧ O.ecX pkey = some (BigEndian.ofBytes x) ∧
      O.ecY pkey = some (BigEndian.ofBytes y)

/-- A key built from raw octets has the type asked for and these octets. -/
def RawComponents (O : Ossl PKey) : Prop :=
  ∀ id raw pkey, O.newRawPublicKey id raw = some pkey →
    O.baseId pkey = id ∧ O.rawPublicKey pkey = some raw

end Ossl

/-! ## 2. nxe-json -/

/-- The two `nxe-json` entry points that read or write text. -/
structure NxeJson where
  /-- `nxe_json_parse_untrusted` -/
  parseUntrusted : Bytes → Option Json
  /-- `nxe_json_from_string` followed by `nxe_json_stringify_compact` -/
  stringifyString : Bytes → Option Bytes

/-! ## 3. The base64url codec of the nginx core -/

/-- `ngx_encode_base64url` and `ngx_decode_base64url`. -/
structure Base64url where
  encode : Bytes → Bytes
  decode : Bytes → Option Bytes

/-- The characters of the base64url alphabet. -/
def base64urlAlphabet : Bytes :=
  ascii "ABCDEFGHIJKLMNOPQRSTUVWXYZabcdefghijklmnopqrstuvwxyz0123456789-_"

/-- What the code relies on: decoding undoes encoding, the encoding stays in the alphabet,
and it is four characters for every three octets, rounded up. -/
structure Base64url.Lawful (C : Base64url) : Prop where
  decode_encode : ∀ b, C.decode (C.encode b) = some b
  alphabet : ∀ b, ∀ c ∈ C.encode b, c ∈ base64urlAlphabet
  length_encode : ∀ b, (C.encode b).length = (4 * b.length + 2) / 3

theorem Base64url.Lawful.encode_injective {C : Base64url} (h : C.Lawful) :
    Function.Injective C.encode := by
  intro a b hab
  have ha := h.decode_encode a
  rw [hab, h.decode_encode b] at ha
  exact (Option.some.inj ha).symm

/-- The encoding of something is something. -/
theorem Base64url.Lawful.encode_eq_nil_iff {C : Base64url} (h : C.Lawful) {b : Bytes} :
    C.encode b = [] ↔ b = [] := by
  have hlen := h.length_encode b
  rw [← List.length_eq_zero_iff, ← List.length_eq_zero_iff (l := b), hlen]
  omega

/-- No character of the alphabet needs an escape in JSON, and none is a dot. -/
theorem plain_of_alphabet : ∀ c ∈ base64urlAlphabet,
    (32 ≤ c ∧ c < 127 ∧ c ≠ 34 ∧ c ≠ 92) ∧ c ≠ 46 := by decide +kernel

theorem Base64url.Lawful.plain_encode {C : Base64url} (h : C.Lawful) (b : Bytes) :
    CompactObject.Plain (C.encode b) :=
  fun c hc => (plain_of_alphabet c (h.alphabet b c hc)).1

theorem Base64url.Lawful.dot_not_mem_encode {C : Base64url} (h : C.Lawful) (b : Bytes) :
    (46 : UInt8) ∉ C.encode b :=
  fun hc => (plain_of_alphabet 46 (h.alphabet b 46 hc)).2 rfl

/-! ## 4. The environment -/

/-- Everything the code is compiled with and linked to.  `haveHmac` is the build flag
`NXE_JWX_HAVE_HMAC`. -/
structure Env (PKey : Type) where
  haveHmac : Bool
  json : NxeJson
  b64 : Base64url
  ossl : Ossl PKey

end NxeJwx
