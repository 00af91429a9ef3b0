/-
# Thumbprints are canonical

The keys of both parsers satisfy `KeyInv` (`JwkOrigin.keyInv`, `PemOrigin.keyInv`), so the text
hashed for a key is the canonical text of its material.  For a key of a JWKS that is the
material its entry describes (`JwkOrigin.keyMaterial`), and nothing else in the entry enters
the thumbprint.

From there equal texts are equal materials (`thumbprints_canonical`), and a thumbprint
identifies key material across keysets as far as SHA-256 does (`material_of_thumbprint`).
-/
import NxeJwx.Keyval
import NxeJwx.Facts

namespace NxeJwx

variable {PKey : Type}

/-! ## 1. The keys of both parsers -/

/-- The keyset comes out of one of the two parsers. -/
def Returned (E : Env PKey) (J : Jwks PKey) : Prop :=
  (∃ F doc pool, jwksParse E F (some doc) (some pool) = some J) ∨
    ∃ F doc pool, keyvalParse E F (some doc) (some pool) = some J

variable {E : Env PKey}

/-- The key of a JWK object: its kind, handle and secret go together, and the handle reports
the material that the object describes. -/
theorem JwkOrigin.keyInv_and_keyMaterial (hl : E.ossl.KeyLaws) {e : Json} {m : Material}
    {k : Key PKey} (ho : JwkOrigin E e m k) :
    KeyInv E.ossl k ∧ keyMaterial E.ossl k = some m := by
  have hkty := ho.kty
  have hpkey := ho.pkey
  have hsecret := ho.hmacSecret
  have hcrv := ho.crv
  have hmade := ho.usable.made
  have hfits := ho.usable.describes.fits
  cases ho.usable.describes with
  | @rsa n e =>
    obtain ⟨p, hp⟩ := Option.isSome_iff_exists.mp (hmade.resolve_left (by simp [Material.kty]))
    obtain ⟨htype, hn, he⟩ := hl.rsa _ _ _ hp
    refine ⟨.rsa hkty (hpkey.trans hp) (.inl htype) hsecret, ?_⟩
    simp [keyMaterial, hkty, Material.kty, hpkey.trans hp, hn, he]
  | @ec c x y _ row crv =>
    obtain ⟨p, hp⟩ := Option.isSome_iff_exists.mp (hmade.resolve_left (by simp [Material.kty]))
    have hrow : lookupEcCurve k.crv = some c := by
      rw [hcrv, crv]
      exact lookupEcCurve_eq_some_iff.mpr ⟨row, rfl⟩
    obtain ⟨htype, hx, hy⟩ := hl.ec _ _ _ _ (by simp) hp
    rw [BigEndian.ofBytes_toBytes hfits.2.1] at hx
    rw [BigEndian.ofBytes_toBytes hfits.2.2] at hy
    refine ⟨.ec hkty (hpkey.trans hp) htype hrow (hl.group _ _ _ hp) hsecret, ?_⟩
    simp [keyMaterial, hkty, Material.kty, hpkey.trans hp, hrow, hx, hy]
  | @okp c x _ row crv =>
    obtain ⟨p, hp⟩ := Option.isSome_iff_exists.mp (hmade.resolve_left (by simp [Material.kty]))
    have hrow : lookupOkpCurve k.crv = some c := by
      rw [hcrv, crv]
      exact lookupOkpCurve_eq_some_iff.mpr ⟨row, rfl⟩
    obtain ⟨htype, hx⟩ := hl.raw _ _ _ hp
    refine ⟨.okp hkty (hpkey.trans hp) hrow htype hsecret, ?_⟩
    simp [keyMaterial, hkty, Material.kty, hpkey.trans hp, hrow, hx]
  | @oct s =>
    refine ⟨.oct hkty hpkey ?_, ?_⟩
    · rw [hsecret]
      exact ho.usable.admissible
    · simp [keyMaterial, hkty, Material.kty, hsecret, Material.secret]

/-- The key of a PEM: its kind and its `crv` are those of the handle. -/
theorem PemOrigin.keyInv {member : Bytes × Json} {p : PKey} {k : Key PKey}
    (ho : PemOrigin E member p k) : KeyInv E.ossl k := by
  obtain ⟨crv, hcrv⟩ := Option.isSome_iff_exists.mp ho.usable.supported
  have hk : k.crv = crv := by rw [ho.crv, hcrv]; rfl
  have hkty := ho.kty
  unfold ktyFromPkey at hkty
  rw [pkeyCrv] at hcrv
  nth_rewrite 1 [ktyFromPkey] at hcrv
  cases hid : E.ossl.baseId p with
  | rsa =>
    simp only [hid] at hkty
    exact .rsa hkty ho.handle (.inl hid) ho.hmacSecret
  | rsaPss =>
    simp only [hid] at hkty
    exact .rsa hkty ho.handle (.inr hid) ho.hmacSecret
  | ec =>
    simp only [hid] at hkty hcrv
    obtain ⟨c, hc, rfl⟩ := Option.map_eq_some_iff.mp hcrv
    obtain ⟨row, hgroup⟩ := ecCurveFromPkey_eq_some_iff.mp hc
    exact .ec hkty ho.handle hid (lookupEcCurve_eq_some_iff.mpr ⟨row, hk.symm⟩) hgroup
      ho.hmacSecret
  | ed25519 | ed448 =>
    simp only [hid] at hkty hcrv
    obtain ⟨c, hc, rfl⟩ := Option.map_eq_some_iff.mp hcrv
    obtain ⟨row, hnid⟩ := okpCurveFromPkey_eq_some_iff.mp hc
    exact .okp hkty ho.handle (lookupOkpCurve_eq_some_iff.mpr ⟨row, hk.symm⟩) hnid ho.hmacSecret
  | other nid =>
    simp only [hid] at hcrv
    exact absurd hcrv (by simp)

/-- Every key of a returned keyset satisfies the invariant, and its thumbprint is the one of the
text hashed for it. -/
theorem keyInv_of_returned (hl : E.ossl.KeyLaws) {J : Jwks PKey} (hJ : Returned E J)
    {k : Key PKey} (hk : k ∈ J.walk) : KeyInv E.ossl k ∧ Thumbprinted E k := by
  rcases hJ with ⟨F, doc, pool, h⟩ | ⟨F, doc, pool, h⟩
  · obtain ⟨entries, e, m, -, -, ho⟩ := mem_of_jwksParse h hk
    exact ⟨(ho.keyInv_and_keyMaterial hl).1, ho.thumbprint⟩
  · obtain ⟨members, member, p, -, -, ho⟩ := mem_of_keyvalParse h hk
    exact ⟨ho.keyInv, ho.thumbprint⟩

/-! ## 2. The text of a key -/

/-- The bytes that are hashed for a key, in a run in which no step before the digest failed. -/
def Hashed (E : Env PKey) (k : Key PKey) (json : Bytes) : Prop :=
  ∃ f, thumbprintText E f k = .ok json

/-- The names that RFC 7638 requires for a key type. -/
def requiredMembers : Kty → List Bytes
  | .rsa => [ascii "e", ascii "kty", ascii "n"]
  | .ec => [ascii "crv", ascii "kty", ascii "x", ascii "y"]
  | .okp => [ascii "crv", ascii "kty", ascii "x"]
  | .oct => [ascii "k", ascii "kty"]
  | .unknown => []

/-- The form of RFC 7638 for the text of a material: the required members and no others, in
lexicographic order, without white space, the integers of an RSA key at their minimal length
and the coordinates of an EC key at the width of the curve. -/
structure Rfc7638 (C : Base64url) (m : Material) (json : Bytes) : Prop where
  object : json = CompactObject.stringObject (m.members C)
  required : (m.members C).map Prod.fst = requiredMembers m.kty
  sorted : ((m.members C).map Prod.fst).Pairwise (· < ·)
  compact : ∀ c ∈ json, 32 < c
  minimal : ∀ n e, m = .rsa n e → (∀ t, BigEndian.minimal n ≠ 0 :: t) ∧
    (∀ t, BigEndian.minimal e ≠ 0 :: t)
  fixed : ∀ c x y, m = .ec c x y → c ∈ ecCurves ∧
    BigEndian.ofBytes (BigEndian.toBytes c.coordLen x) = x ∧
    BigEndian.ofBytes (BigEndian.toBytes c.coordLen y) = y

/-- Visible characters only: no control character, and no space. -/
def Visible (s : Bytes) : Prop := ∀ c ∈ s, 32 < c

instance (s : Bytes) : Decidable (Visible s) := inferInstanceAs (Decidable (∀ c ∈ s, 32 < c))

theorem alphabet_visible : ∀ c ∈ base64urlAlphabet, 32 < c := by decide +kernel

theorem literals_visible : (∀ s ∈ Material.literals, Visible s) ∧
    (∀ c ∈ ecCurves, Visible c.jwkCrv) ∧ ∀ c ∈ okpCurves, Visible c.jwkCrv := by
  decide +kernel

/-- The canonical text has no white space. -/
theorem text_visible {C : Base64url} (hC : C.Lawful) {m : Material} (hm : m.Fits) :
    Visible (m.text C) := by
  obtain ⟨lit, hec, hokp⟩ := literals_visible
  have enc : ∀ b, Visible (C.encode b) := fun b c hc => alphabet_visible c (hC.alphabet b c hc)
  exact CompactObject.forall_mem_stringObject (by decide +kernel)
    (Material.forall_members lit enc hec hokp hm)

/-- The canonical text has the form of RFC 7638. -/
theorem rfc7638_text {C : Base64url} (hC : C.Lawful) {m : Material} (hm : m.Fits) :
    Rfc7638 C m (m.text C) where
  object := rfl
  required := by cases m <;> rfl
  sorted := by
    cases m <;>
      simp only [Material.members, List.map_cons, List.map_nil] <;> decide
  compact := text_visible hC hm
  minimal n e _ :=
    ⟨fun _ => BigEndian.minimal_head_ne_zero, fun _ => BigEndian.minimal_head_ne_zero⟩
  fixed c x y h := by
    subst h
    exact ⟨hm.1, BigEndian.ofBytes_toBytes hm.2.1, BigEndian.ofBytes_toBytes hm.2.2⟩

/-! ## 3. Equal thumbprints, equal material -/

/-- The text hashed for a key is the text of its material. -/
theorem Hashed.material (hl : E.ossl.KeyLaws) {k : Key PKey} (hk : KeyInv E.ossl k)
    {json : Bytes} (h : Hashed E k json) :
    ∃ m, keyMaterial E.ossl k = some m ∧ m.Fits ∧ json = m.text E.b64 := by
  obtain ⟨f, hf⟩ := h
  exact thumbprintText_eq_ok hl.bits hk hf

/-- Two keys with the same thumbprint have the same material, SHA-256 being injective. -/
theorem material_of_thumbprint (hC : E.b64.Lawful) (hl : E.ossl.KeyLaws)
    (hsha : E.ossl.Sha256Injective) {k1 k2 : Key PKey} (h1 : KeyInv E.ossl k1)
    (h2 : KeyInv E.ossl k2) (t1 : Thumbprinted E k1) (t2 : Thumbprinted E k2)
    (hne : k1.thumbprint ≠ []) (heq : k1.thumbprint = k2.thumbprint) :
    ∃ m, keyMaterial E.ossl k1 = some m ∧ keyMaterial E.ossl k2 = some m := by
  obtain ⟨f1, j1, d1, hj1, hd1, he1⟩ := t1 hne
  obtain ⟨f2, j2, d2, hj2, hd2, he2⟩ := t2 (heq ▸ hne)
  have hd : d1 = d2 := hC.encode_injective (he1.symm.trans (heq.trans he2))
  have hj : j1 = j2 := hsha _ _ d1 hd1 (hd ▸ hd2)
  obtain ⟨m1, hm1, hfit1, rfl⟩ := thumbprintText_eq_ok hl.bits h1 hj1
  obtain ⟨m2, hm2, hfit2, rfl⟩ := thumbprintText_eq_ok hl.bits h2 hj2
  obtain rfl := Material.text_injective hC hfit1 hfit2 hj
  exact ⟨m1, hm1, hm2⟩

/-- What a thumbprint is.  It is the SHA-256 of a text in the form of RFC 7638; the texts of
two keys are equal exactly when the keys have the same type and material; for two entries of a
JWKS it is enough that they describe the same material; and with an injective SHA-256 a
thumbprint selects the same material from any two keysets. -/
theorem thumbprints_canonical (hC : E.b64.Lawful) (hl : E.ossl.KeyLaws) :
    (∀ J k, Returned E J → k ∈ J.walk → k.thumbprint ≠ [] →
      ∃ json digest m, Hashed E k json ∧ E.ossl.digest .sha256 json = some digest ∧
        k.thumbprint = E.b64.encode digest ∧ keyMaterial E.ossl k = some m ∧
        Rfc7638 E.b64 m json) ∧
    (∀ J1 J2 k1 k2 j1 j2, Returned E J1 → Returned E J2 → k1 ∈ J1.walk → k2 ∈ J2.walk →
      Hashed E k1 j1 → Hashed E k2 j2 →
      (j1 = j2 ↔ k1.kty = k2.kty ∧ keyMaterial E.ossl k1 = keyMaterial E.ossl k2)) ∧
    (∀ e1 e2 m k1 k2 j1 j2, JwkOrigin E e1 m k1 → JwkOrigin E e2 m k2 → Hashed E k1 j1 →
      Hashed E k2 j2 → j1 = j2) ∧
    (E.ossl.Sha256Injective → ∀ J1 J2 keyid k1 k2, Returned E J1 → Returned E J2 →
      findByThumbprint (some J1) (some keyid) = some k1 →
      findByThumbprint (some J2) (some keyid) = some k2 →
      k1.kty = k2.kty ∧ ∃ m, keyMaterial E.ossl k1 = some m ∧ keyMaterial E.ossl k2 = some m) := by
  refine ⟨?_, ?_, ?_, ?_⟩
  · intro J k hJ hk hne
    obtain ⟨hinv, htp⟩ := keyInv_of_returned hl hJ hk
    obtain ⟨f, json, digest, hjson, hdigest, henc⟩ := htp hne
    obtain ⟨m, hm, hfit, rfl⟩ := thumbprintText_eq_ok hl.bits hinv hjson
    exact ⟨_, digest, m, ⟨f, hjson⟩, hdigest, henc, hm, rfc7638_text hC hfit⟩
  · intro J1 J2 k1 k2 j1 j2 hJ1 hJ2 hk1 hk2 hj1 hj2
    obtain ⟨m1, hm1, hfit1, rfl⟩ := hj1.material hl (keyInv_of_returned hl hJ1 hk1).1
    obtain ⟨m2, hm2, hfit2, rfl⟩ := hj2.material hl (keyInv_of_returned hl hJ2 hk2).1
    constructor
    · intro h
      obtain rfl := Material.text_injective hC hfit1 hfit2 h
      exact ⟨(kty_of_keyMaterial hm1).trans (kty_of_keyMaterial hm2).symm, hm1.trans hm2.symm⟩
    · rintro ⟨-, h⟩
      rw [Option.some.inj (hm1.symm.trans (h.trans hm2))]
  · intro e1 e2 m k1 k2 j1 j2 ho1 ho2 hj1 hj2
    obtain ⟨hinv1, hmat1⟩ := ho1.keyInv_and_keyMaterial hl
    obtain ⟨hinv2, hmat2⟩ := ho2.keyInv_and_keyMaterial hl
    obtain ⟨m1, hm1, -, rfl⟩ := hj1.material hl hinv1
    obtain ⟨m2, hm2, -, rfl⟩ := hj2.material hl hinv2
    rw [Option.some.inj (hm1.symm.trans hmat1), Option.some.inj (hm2.symm.trans hmat2)]
  · intro hsha J1 J2 keyid k1 k2 hJ1 hJ2 hf1 hf2
    obtain ⟨hk1, ht1, hne⟩ := findByThumbprint_some hf1
    obtain ⟨hk2, ht2, -⟩ := findByThumbprint_some hf2
    obtain ⟨hi1, hp1⟩ := keyInv_of_returned hl hJ1 hk1
    obtain ⟨hi2, hp2⟩ := keyInv_of_returned hl hJ2 hk2
    obtain ⟨m, hm1, hm2⟩ := material_of_thumbprint hC hl hsha hi1 hi2 hp1 hp2 (ht1 ▸ hne)
      (ht1.trans ht2.symm)
    exact ⟨(kty_of_keyMaterial hm1).trans (kty_of_keyMaterial hm2).symm, m, hm1, hm2⟩

/-- The Ed25519 key, by its thumbprint from the JWKS and from the keyval document. -/
theorem thumbprints_canonical_ed25519 :
    (∃ json, Hashed (edFacts []).env (edKey []) json ∧
      Hashed (edFacts []).env (edKey (ascii "k1")) json) ∧
    ∃ m, keyMaterial (edFacts []).ossl (edKey []) = some m ∧
      keyMaterial (edFacts []).ossl (edKey (ascii "k1")) = some m := by
  obtain ⟨hform, htext, -, hselect⟩ :=
    thumbprints_canonical (E := (edFacts []).env) stubCodec_lawful (edFacts []).keyLaws
  have hJ1 : Returned (edFacts []).env (.ofList [edKey []]) :=
    .inl ⟨noParseFaults, edJwks.1, ⟨⟩, by decide +kernel⟩
  have hJ2 : Returned (edFacts []).env (.ofList [edKey (ascii "k1")]) :=
    .inr ⟨noParseFaults, edKeyval.1, ⟨⟩, by decide +kernel⟩
  obtain ⟨-, m, hm1, hm2⟩ :=
    hselect (edFacts_sha256 []) _ _ (edKey []).thumbprint _ _ hJ1 hJ2 rfl rfl
  obtain ⟨j1, -, -, hj1, -⟩ := hform _ (edKey []) hJ1 (by decide) (by decide)
  obtain ⟨j2, -, -, hj2, -⟩ := hform _ (edKey (ascii "k1")) hJ2 (by decide) (by decide)
  obtain rfl := (htext _ _ (edKey []) (edKey (ascii "k1")) j1 j2 hJ1 hJ2 (by decide) (by decide)
    hj1 hj2).mpr ⟨rfl, hm1.trans hm2.symm⟩
  exact ⟨⟨j1, hj1, hj2⟩, m, hm1, hm2⟩

end NxeJwx
