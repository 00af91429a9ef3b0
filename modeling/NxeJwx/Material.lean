/-
# Key material

What a key IS, apart from its labels: the integers of an RSA key, the curve and the affine
coordinates of an EC key, the curve and the octets of an OKP key, the octets of a secret.

Three things are said about it here, all of them specification and none of them code.  A JWK
object describes a material (`Describes`), whatever its other members are and however its
integers are spelled.  A material has an OpenSSL handle (`Material.pkey`).  And it has a
canonical text (`Material.text`): the required members of RFC 7638 in their lexicographic
order, which determines it (`Material.text_injective`).

`keyMaterial` reads the material of a key back from its handle.
-/
import NxeJwx.Keyset

namespace NxeJwx

/-- Key material, by key type. -/
inductive Material where
  | rsa (n e : Nat)
  | ec (curve : EcCurve) (x y : Nat)
  | okp (curve : OkpCurve) (x : Bytes)
  | oct (secret : Bytes)
  deriving DecidableEq, Repr

namespace Material

/-- The key type. -/
def kty : Material → Kty
  | .rsa .. => .rsa
  | .ec .. => .ec
  | .okp .. => .okp
  | .oct .. => .oct

/-- The symmetric secret, empty for a public key. -/
def secret : Material → Bytes
  | .oct s => s
  | _ => []

/-- The uncompressed SEC1 point of a pair of coordinates. -/
def point (curve : EcCurve) (x y : Nat) : Bytes :=
  4 :: BigEndian.toBytes curve.coordLen x ++ BigEndian.toBytes curve.coordLen y

/-- The OpenSSL handle of a public key; a secret has none. -/
def pkey {PKey : Type} (O : Ossl PKey) : Material → Option PKey
  | .rsa n e => O.rsaFromData n e
  | .ec c x y => O.ecFromData c.osslName (point c x y)
  | .okp c x => O.newRawPublicKey c.nid x
  | .oct _ => none

/-- The curve is a row of its table and integer coordinates fit its width. -/
def Fits : Material → Prop
  | .rsa .. => True
  | .ec c x y => c ∈ ecCurves ∧ x < 256 ^ c.coordLen ∧ y < 256 ^ c.coordLen
  | .okp c _ => c ∈ okpCurves
  | .oct _ => True

/-- What a JWKS entry must describe to be used: an RSA modulus within bounds, a secret that
is not empty. -/
def Admissible : Material → Prop
  | .rsa n _ => minRsaBits ≤ BigEndian.bitLength n ∧ BigEndian.bitLength n ≤ maxRsaBits
  | .oct s => s ≠ []
  | _ => True

/-! ## 1. The canonical text -/

/-- The required members in lexicographic order, as names and string values. -/
def members (C : Base64url) : Material → List (Bytes × Bytes)
  | .rsa n e =>
    [ (ascii "e", C.encode (BigEndian.minimal e)), (ascii "kty", ascii "RSA"),
      (ascii "n", C.encode (BigEndian.minimal n)) ]
  | .ec c x y =>
    [ (ascii "crv", c.jwkCrv), (ascii "kty", ascii "EC"),
      (ascii "x", C.encode (BigEndian.toBytes c.coordLen x)),
      (ascii "y", C.encode (BigEndian.toBytes c.coordLen y)) ]
  | .okp c x =>
    [ (ascii "crv", c.jwkCrv), (ascii "kty", ascii "OKP"), (ascii "x", C.encode x) ]
  | .oct s => [ (ascii "k", C.encode s), (ascii "kty", ascii "oct") ]

/-- The canonical text: the required members as an object without white space. -/
def text (C : Base64url) (m : Material) : Bytes := CompactObject.stringObject (m.members C)

theorem jwkCrv_plain_ec : ∀ c ∈ ecCurves, CompactObject.Plain c.jwkCrv := by decide +kernel

theorem jwkCrv_plain_okp : ∀ c ∈ okpCurves, CompactObject.Plain c.jwkCrv := by decide +kernel

theorem ecCurves_jwkCrv_inj : ∀ c ∈ ecCurves, ∀ c' ∈ ecCurves, c.jwkCrv = c'.jwkCrv → c = c' := by
  decide

theorem okpCurves_jwkCrv_inj : ∀ c ∈ okpCurves, ∀ c' ∈ okpCurves,
    c.jwkCrv = c'.jwkCrv → c = c' := by decide

/-- The names and the literal values of the members. -/
def literals : List Bytes :=
  [ascii "e", ascii "kty", ascii "n", ascii "crv", ascii "x", ascii "y", ascii "k",
    ascii "RSA", ascii "EC", ascii "OKP", ascii "oct"]

/-- What holds of the literals, of the curve names and of every base64url text holds of all
strings among the members. -/
theorem forall_members {P : Bytes → Prop} {C : Base64url} (lit : ∀ s ∈ literals, P s)
    (enc : ∀ b, P (C.encode b)) (hec : ∀ c ∈ ecCurves, P c.jwkCrv)
    (hokp : ∀ c ∈ okpCurves, P c.jwkCrv) {m : Material} (hm : m.Fits) :
    ∀ v ∈ m.members C, P v.1 ∧ P v.2 := by
  intro v hv
  cases m with
  | rsa n e =>
    simp only [members, List.mem_cons, List.not_mem_nil, or_false] at hv
    rcases hv with rfl | rfl | rfl
    · exact ⟨lit _ (by simp [literals]), enc _⟩
    · exact ⟨lit _ (by simp [literals]), lit _ (by simp [literals])⟩
    · exact ⟨lit _ (by simp [literals]), enc _⟩
  | ec c x y =>
    simp only [members, List.mem_cons, List.not_mem_nil, or_false] at hv
    rcases hv with rfl | rfl | rfl | rfl
    · exact ⟨lit _ (by simp [literals]), hec c hm.1⟩
    · exact ⟨lit _ (by simp [literals]), lit _ (by simp [literals])⟩
    · exact ⟨lit _ (by simp [literals]), enc _⟩
    · exact ⟨lit _ (by simp [literals]), enc _⟩
  | okp c x =>
    simp only [members, List.mem_cons, List.not_mem_nil, or_false] at hv
    rcases hv with rfl | rfl | rfl
    · exact ⟨lit _ (by simp [literals]), hokp c hm⟩
    · exact ⟨lit _ (by simp [literals]), lit _ (by simp [literals])⟩
    · exact ⟨lit _ (by simp [literals]), enc _⟩
  | oct s =>
    simp only [members, List.mem_cons, List.not_mem_nil, or_false] at hv
    rcases hv with rfl | rfl
    · exact ⟨lit _ (by simp [literals]), enc _⟩
    · exact ⟨lit _ (by simp [literals]), lit _ (by simp [literals])⟩

theorem literals_plain : ∀ s ∈ literals, CompactObject.Plain s := by decide +kernel

/-- No member of a canonical text needs an escape. -/
theorem plainMembers {C : Base64url} (hC : C.Lawful) {m : Material} (hm : m.Fits) :
    CompactObject.PlainMembers (m.members C) :=
  forall_members literals_plain hC.plain_encode jwkCrv_plain_ec jwkCrv_plain_okp hm

/-- The `kty` values and the names that open a text tell the key types apart. -/
theorem literals_ne : ascii "e" ≠ ascii "crv" ∧ ascii "e" ≠ ascii "k" ∧
    ascii "crv" ≠ ascii "k" ∧ ascii "EC" ≠ ascii "OKP" := by decide

/-- The members determine the material. -/
theorem members_injective {C : Base64url} (hC : C.Lawful) {m m' : Material} (hm : m.Fits)
    (hm' : m'.Fits) (h : m.members C = m'.members C) : m = m' := by
  have henc := hC.encode_injective
  obtain ⟨h1, h2, h3, h4⟩ := literals_ne
  cases m <;> cases m' <;>
    simp only [members, List.cons.injEq, Prod.mk.injEq, reduceCtorEq, and_true, and_false,
      true_and, h1, h2, h3, h4, h1.symm, h2.symm, h3.symm, h4.symm, false_and] at h
  case rsa.rsa n e n' e' =>
    rw [BigEndian.minimal_injective (henc h.1), BigEndian.minimal_injective (henc h.2)]
  case ec.ec c x y c' x' y' =>
    obtain ⟨hc, hx, hy⟩ := h
    obtain rfl := ecCurves_jwkCrv_inj c hm.1 c' hm'.1 hc
    rw [BigEndian.toBytes_injOn hm.2.1 hm'.2.1 (henc hx),
      BigEndian.toBytes_injOn hm.2.2 hm'.2.2 (henc hy)]
  case okp.okp c x c' x' =>
    obtain rfl := okpCurves_jwkCrv_inj c hm c' hm' h.1
    rw [henc h.2]
  case oct.oct s s' => rw [henc h]

/-- The canonical text determines the material, key type included. -/
theorem text_injective {C : Base64url} (hC : C.Lawful) {m m' : Material} (hm : m.Fits)
    (hm' : m'.Fits) (h : m.text C = m'.text C) : m = m' :=
  members_injective hC hm hm'
    (CompactObject.stringObject_injective (plainMembers hC hm) (plainMembers hC hm') h)

end Material

/-! ## 2. What a JWK object describes -/

section Describes

variable {PKey : Type}

/-- The octets that a member of a JWK object spells: it is a non-empty string that is valid
base64url. -/
def OctetsAt (E : Env PKey) (jwk : Json) (name b : Bytes) : Prop :=
  ∃ s, jwk.stringAt name = some s ∧ s ≠ [] ∧ E.b64.decode s = some b

/-- The material of a JWK object, read off its `kty` and the members that this `kty`
requires. -/
inductive Describes (E : Env PKey) (jwk : Json) : Material → Prop
  | rsa {n e : Bytes} (kty : jwk.stringAt (ascii "kty") = some (ascii "RSA"))
      (hn : OctetsAt E jwk (ascii "n") n) (he : OctetsAt E jwk (ascii "e") e) :
      Describes E jwk (.rsa (BigEndian.ofBytes n) (BigEndian.ofBytes e))
  | ec {c : EcCurve} {x y : Bytes} (kty : jwk.stringAt (ascii "kty") = some (ascii "EC"))
      (row : c ∈ ecCurves) (crv : jwk.stringAt (ascii "crv") = some c.jwkCrv)
      (hx : OctetsAt E jwk (ascii "x") x) (xlen : x.length = c.coordLen)
      (hy : OctetsAt E jwk (ascii "y") y) (ylen : y.length = c.coordLen) :
      Describes E jwk (.ec c (BigEndian.ofBytes x) (BigEndian.ofBytes y))
  | okp {c : OkpCurve} {x : Bytes} (kty : jwk.stringAt (ascii "kty") = some (ascii "OKP"))
      (row : c ∈ okpCurves) (crv : jwk.stringAt (ascii "crv") = some c.jwkCrv)
      (hx : OctetsAt E jwk (ascii "x") x) (xlen : x.length = c.keyLen) :
      Describes E jwk (.okp c x)
  | oct {s : Bytes} (hmac : E.haveHmac = true)
      (kty : jwk.stringAt (ascii "kty") = some (ascii "oct"))
      (hs : OctetsAt E jwk (ascii "k") s) : Describes E jwk (.oct s)

variable {E : Env PKey} {jwk : Json} {m : Material}

theorem OctetsAt.unique {name b b' : Bytes} (h : OctetsAt E jwk name b)
    (h' : OctetsAt E jwk name b') : b = b' := by
  obtain ⟨s, hs, -, hb⟩ := h
  obtain ⟨s', hs', -, hb'⟩ := h'
  obtain rfl := Option.some.inj (hs.symm.trans hs')
  exact Option.some.inj (hb.symm.trans hb')

/-- Coordinates of the curve's width are within its bounds. -/
theorem Describes.fits (h : Describes E jwk m) : m.Fits := by
  cases h with
  | rsa => trivial
  | @ec c x y _ row _ _ xlen _ ylen =>
    exact ⟨row, xlen ▸ BigEndian.ofBytes_lt x, ylen ▸ BigEndian.ofBytes_lt y⟩
  | okp _ row => exact row
  | oct => trivial

/-- The name of the key type, as a JWK object writes it. -/
def Kty.jwkName : Kty → Bytes
  | .rsa => ascii "RSA"
  | .ec => ascii "EC"
  | .okp => ascii "OKP"
  | .oct => ascii "oct"
  | .unknown => []

theorem Describes.kty_eq (h : Describes E jwk m) :
    jwk.stringAt (ascii "kty") = some m.kty.jwkName := by
  cases h <;> assumption

end Describes

/-! ## 3. Reading the material of a key -/

section KeyMaterial

variable {PKey : Type}

/-- The material of a key: its secret, or what OpenSSL reports of its handle. -/
def keyMaterial (O : Ossl PKey) (k : Key PKey) : Option Material :=
  match k.kty with
  | .rsa => do
    let p ← k.pkey
    let n ← O.rsaN p
    let e ← O.rsaE p
    return .rsa n e
  | .ec => do
    let p ← k.pkey
    let c ← lookupEcCurve k.crv
    let x ← O.ecX p
    let y ← O.ecY p
    return .ec c x y
  | .okp => do
    let p ← k.pkey
    let c ← lookupOkpCurve k.crv
    let x ← O.rawPublicKey p
    return .okp c x
  | .oct => some (.oct k.hmacSecret)
  | .unknown => none

/-- The material read from a key has its type. -/
theorem kty_of_keyMaterial {O : Ossl PKey} {k : Key PKey} {m : Material}
    (h : keyMaterial O k = some m) : k.kty = m.kty := by
  unfold keyMaterial at h
  split at h <;>
    simp only [Option.bind_eq_bind, Option.bind_eq_some_iff, Option.pure_def, Option.some.injEq,
      reduceCtorEq] at h
  case h_1 hk => obtain ⟨p, -, n, -, e, -, rfl⟩ := h; exact hk
  case h_2 hk => obtain ⟨p, -, c, -, x, -, y, -, rfl⟩ := h; exact hk
  case h_3 hk => obtain ⟨p, -, c, -, x, -, rfl⟩ := h; exact hk
  case h_4 hk => subst h; exact hk

end KeyMaterial

end NxeJwx
