/-
# Verification, stated on the two documents

A caller parses a document, decodes a token and verifies the one against the other.  This module
says what the three calls decide together, without keysets or keys: in terms of what the document
offers and what the token asks for (`verification_refines_documents`).

An `Offer` is all that a verification may learn of a key: the label it is under, the algorithm it
is pinned to, its type and curve, and which signatures it accepts.  Both formats publish offers,
each in its own words (`jwkOffer`, `pemOffer`).  The keyset of a document offers what the document
publishes, no more and no less (`keysetOffers_of_jwksParse`, `keysetOffers_of_keyvalParse`), and a
token is judged by the offers alone (`policyAccepts_iff_judged`).
-/
import NxeJwx.Canonical
import NxeJwx.HardErrors
import NxeJwx.Lib.Directory

namespace NxeJwx

open Directory

variable {PKey : Type}

/-! ## 1. Offers -/

/-- What a key is to a verification. -/
structure Offer where
  label : Option Bytes
  pin : Option Bytes
  kty : Kty
  curve : Option Bytes
  trial : Alg → Bytes → Bytes → TryEach.Trial

/-- The offer may be used under `alg`. -/
structure Offer.Serves (o : Offer) (alg : Alg) : Prop where
  pin : ∀ s, o.pin = some s → s = alg.name
  kty : o.kty = alg.family.kty
  curve : ∀ name, alg.ecCurve = some name → o.curve = some name

/-- The token carries a signature, names an algorithm of the table, and an offer that may serve
its kid serves that algorithm and accepts. -/
def Judged (E : Env PKey) (S : Set Offer) (t : Token) : Prop :=
  t.signature ≠ [] ∧ ∃ alg ∈ algs E.haveHmac, alg.name = t.alg ∧
    Admits S Offer.label (tokenKid (some t)) fun o =>
      o.Serves alg ∧ o.trial alg t.signingInput t.signature = .accepted

/-- A string member, where an empty string counts as none. -/
def nonEmpty (s : Option Bytes) : Option Bytes := s.filter fun v => v.length ≠ 0

/-- The OpenSSL name of the curve of an EC key. -/
def Material.curveName : Material → Option Bytes
  | .ec c _ _ => some c.osslName
  | _ => none

/-- The name of the curve of a handle, which is read for EC keys only. -/
def curveName (O : Ossl PKey) (kty : Kty) (pkey : Option PKey) : Option Bytes :=
  if kty = .ec then pkey.bind O.groupName else none

/-- What a JWK offers that describes `m`. -/
def jwkOffer (E : Env PKey) (e : Json) (m : Material) : Offer where
  label := nonEmpty (e.stringAt (ascii "kid"))
  pin := nonEmpty (e.stringAt (ascii "alg"))
  kty := m.kty
  curve := m.curveName
  trial := materialTrial E m

/-- What a PEM that loads as `pkey` offers under its name. -/
def pemOffer (E : Env PKey) (name : Bytes) (pkey : PKey) : Offer where
  label := some name
  pin := none
  kty := ktyFromPkey E.ossl pkey
  curve := curveName E.ossl (ktyFromPkey E.ossl pkey) (some pkey)
  trial := handleTrial E pkey

/-- What a key of a keyset offers. -/
def keyOffer (E : Env PKey) (k : Key PKey) : Offer where
  label := nonEmpty (some k.kid)
  pin := nonEmpty (some k.alg)
  kty := k.kty
  curve := curveName E.ossl k.kty k.pkey
  trial := primitive E k

/-- What the usable entries of a JWKS offer. -/
def jwksOffers (E : Env PKey) (entries : List Json) : Set Offer :=
  {o | ∃ e ∈ entries, ∃ m, Usable E e m ∧ jwkOffer E e m = o}

/-- What the supported members of a keyval document offer. -/
def keyvalOffers (E : Env PKey) (members : List (Bytes × Json)) : Set Offer :=
  {o | ∃ member ∈ members, ∃ pkey, PemMember E member pkey ∧ pemOffer E member.1 pkey = o}

/-- What the keys of a keyset offer. -/
def keysetOffers (E : Env PKey) (J : Jwks PKey) : Set Offer := keyOffer E '' {k | k ∈ J.walk}

/-- The JWKS document `doc` publishes `S`: none of its entries aborts it, and something is
offered. -/
structure JwksPublishes (E : Env PKey) (doc : Bytes) (S : Set Offer) : Prop where
  published : ∃ entries, KeysArray E doc entries ∧ S = jwksOffers E entries ∧
    ∀ e ∈ entries, ForSigning e → ¬ Aborts E e
  nonempty : S.Nonempty

/-- The keyval document `doc` publishes `S`: something is offered. -/
structure KeyvalPublishes (E : Env PKey) (doc : Bytes) (S : Set Offer) : Prop where
  published : ∃ members, KeyvalMembers E doc members ∧ S = keyvalOffers E members
  nonempty : S.Nonempty

variable {E : Env PKey}

@[simp] theorem nonEmpty_none : nonEmpty none = none := rfl

theorem nonEmpty_some_eq_some_iff {s v : Bytes} : nonEmpty (some s) = some v ↔ s = v ∧ v ≠ [] := by
  rw [nonEmpty, Option.filter_eq_some_iff, Option.some.injEq, decide_eq_true_eq]
  exact and_congr_right fun _ => not_congr List.length_eq_zero_iff

theorem nonEmpty_some_eq_none_iff {s : Bytes} : nonEmpty (some s) = none ↔ s = [] := by
  rw [nonEmpty, Option.filter_eq_none_iff]
  simp

/-- A field that is copied from a member, and left empty where there is none. -/
theorem nonEmpty_getD (s : Option Bytes) : nonEmpty (some (s.getD [])) = nonEmpty s := by
  cases s with
  | none => rfl
  | some v => rfl

theorem curveName_ec (O : Ossl PKey) (pkey : Option PKey) :
    curveName O .ec pkey = pkey.bind O.groupName := if_pos rfl

/-! ## 2. A keyset is what it offers -/

/-- What the compatibility check decides for a key that either parser made. -/
theorem KeyInv.serves_iff {k : Key PKey} (h : KeyInv E.ossl k) {alg : Alg}
    (ha : alg ∈ algs E.haveHmac) :
    (keyOffer E k).Serves alg ↔ keyCompatible E.ossl k alg = true := by
  constructor
  · intro hs
    have hpin : k.alg = [] ∨ k.alg = alg.name := by
      by_cases hk : k.alg = []
      · exact .inl hk
      · exact .inr (hs.pin k.alg (nonEmpty_some_eq_some_iff.mpr ⟨rfl, hk⟩))
    have hkty : k.kty = alg.family.kty := hs.kty
    unfold keyCompatible
    rw [pin_passes hpin ha, if_neg (by simp)]
    cases hf : alg.family with
    | rsa | rsaPss | hmac => simp [hkty, hf, AlgFamily.kty]
    | ecdsa =>
      have hec : k.kty = .ec := by rw [hkty, hf]; rfl
      obtain ⟨name, hname⟩ := Option.isSome_iff_exists.mp ((algs_ecCurve alg ha).mpr hf)
      have hgroup : k.pkey.bind E.ossl.groupName = some name := by
        rw [← curveName_ec, ← hec]
        exact hs.curve name hname
      simp [hec, hname, ecCurveMatches, hgroup]
    | eddsa =>
      have hokp : k.kty = .okp := by rw [hkty, hf]; rfl
      cases h with
      | rsa kty | ec kty | oct kty => exact absurd (kty.symm.trans hokp) (by simp)
      | okp kty pkey row type =>
        rcases okpCurves_nid _ (lookupOkpCurve_eq_some_iff.mp row).1 with hnid | hnid <;>
          simp [hokp, pkey, type, hnid]
  · intro hc
    refine ⟨?_, keyCompatible_kty hc, ?_⟩
    · intro s hs
      obtain ⟨rfl, hne⟩ := nonEmpty_some_eq_some_iff.mp hs
      exact (keyCompatible_pin hc ha).resolve_left hne
    · intro name hname
      obtain ⟨p, hp, hgroup⟩ := keyCompatible_curve hc ha hname
      have hec : k.kty = .ec := by
        rw [keyCompatible_kty hc, (algs_ecCurve alg ha).mp (by rw [hname]; rfl)]
        rfl
      rw [keyOffer, hec, curveName_ec, hp, Option.bind_some, hgroup]

/-- The kid of the policy is the label of the offer. -/
theorem eligible_iff_selects {J : Jwks PKey} {kid : Option Bytes} (hkid : kid ≠ some [])
    {k : Key PKey} (hk : k ∈ J.walk) :
    Eligible J kid k ↔ Selects {k | k ∈ J.walk} (fun k => (keyOffer E k).label) kid k := by
  have hlabel : ∀ k' : Key PKey, ∀ id, kid = some id →
      ((keyOffer E k').label = some id ↔ k'.kid = id) := by
    intro k' id hw
    rw [keyOffer, nonEmpty_some_eq_some_iff]
    refine and_iff_left ?_
    rintro rfl
    exact hkid hw
  constructor
  · intro he
    refine ⟨hk, ?_, ?_⟩
    · rintro id hw ⟨k', hk', hl⟩
      exact (hlabel k id hw).mpr ((he id hw).1 ⟨k', hk', (hlabel k' id hw).mp hl⟩)
    · intro id hw hl
      exact nonEmpty_some_eq_none_iff.mpr
        ((he id hw).2 fun k' hk' hid => hl k' hk' ((hlabel k' id hw).mpr hid))
  · intro hs id hw
    constructor
    · rintro ⟨k', hk', hid⟩
      exact (hlabel k id hw).mp (hs.labelled id hw ⟨k', hk', (hlabel k' id hw).mpr hid⟩)
    · intro hno
      exact nonEmpty_some_eq_none_iff.mp
        (hs.unlabelled id hw fun k' hk' hl => hno k' hk' ((hlabel k' id hw).mp hl))

/-- The policy judges a token by what the keys offer. -/
theorem policyAccepts_iff_judged {J : Jwks PKey} (hJ : ∀ k ∈ J.walk, KeyInv E.ossl k)
    (t : Token) : PolicyAccepts E (primitive E) t J ↔ Judged E (keysetOffers E J) t := by
  have hadmits : ∀ alg ∈ algs E.haveHmac,
      Admits (keysetOffers E J) Offer.label (tokenKid (some t)) (fun o =>
        o.Serves alg ∧ o.trial alg t.signingInput t.signature = .accepted) ↔
      ∃ k ∈ J.walk, Eligible J (tokenKid (some t)) k ∧ keyCompatible E.ossl k alg = true ∧
        primitive E k alg t.signingInput t.signature = .accepted := by
    intro alg ha
    rw [keysetOffers, admits_image_iff]
    constructor
    · rintro ⟨k, hk, hserves, hacc⟩
      exact ⟨k, hk.mem, (eligible_iff_selects (tokenKid_ne_some_nil t) hk.mem).mpr hk,
        ((hJ k hk.mem).serves_iff ha).mp hserves, hacc⟩
    · rintro ⟨k, hk, he, hc, hacc⟩
      exact ⟨k, (eligible_iff_selects (tokenKid_ne_some_nil t) hk).mp he,
        ((hJ k hk).serves_iff ha).mpr hc, hacc⟩
  constructor
  · rintro ⟨alg, ha, hn, -, hsig, hk⟩
    exact ⟨hsig, alg, ha, hn, (hadmits alg ha).mpr hk⟩
  · rintro ⟨hsig, alg, ha, hn, hadm⟩
    exact ⟨alg, ha, hn, hn ▸ (algs_name_ne _ alg ha).1, hsig, (hadmits alg ha).mp hadm⟩

/-! ## 3. A keyset offers what its document publishes -/

/-- The key of an entry offers what the entry does. -/
theorem JwkOrigin.offer_eq (hg : E.ossl.EcGroup) {e : Json} {m : Material} {k : Key PKey}
    (ho : JwkOrigin E e m k) : keyOffer E k = jwkOffer E e m := by
  have hcurve : curveName E.ossl m.kty (m.pkey E.ossl) = m.curveName := by
    have hmade := ho.usable.made
    cases m with
    | rsa | okp | oct => rfl
    | ec c x y =>
      obtain ⟨p, hp⟩ := Option.isSome_iff_exists.mp (hmade.resolve_left (by simp [Material.kty]))
      rw [Material.kty, curveName_ec, hp, Option.bind_some, hg _ _ _ hp, Material.curveName]
  have htrial : primitive E k = materialTrial E m := by
    funext alg
    rw [materialTrial, primitive_congr]
    · exact ho.pkey
    · exact ho.hmacSecret
  simp only [keyOffer, jwkOffer, ho.kid, ho.alg, nonEmpty_getD, htrial, ho.kty, ho.pkey, hcurve]

/-- The key of a member offers what the member does. -/
theorem PemOrigin.offer_eq {member : Bytes × Json} {pkey : PKey} {k : Key PKey}
    (ho : PemOrigin E member pkey k) : keyOffer E k = pemOffer E member.1 pkey := by
  have htrial : primitive E k = handleTrial E pkey := by
    funext alg
    rw [handleTrial, primitive_congr]
    · exact ho.handle
    · exact ho.hmacSecret
  have hlabel : nonEmpty (some member.1) = some member.1 :=
    nonEmpty_some_eq_some_iff.mpr ⟨rfl, ho.usable.name⟩
  have hpin : nonEmpty (some []) = none := nonEmpty_some_eq_none_iff.mpr rfl
  simp only [keyOffer, pemOffer, ho.kid, ho.alg, ho.kty, ho.handle, hlabel, hpin, htrial]

section Documents

variable {doc : Bytes} {pool : Pool} {J : Jwks PKey}

/-- Whichever steps fail, the keyset of a JWKS offers what the usable entries do. -/
theorem keysetOffers_of_jwksParse (hg : E.ossl.EcGroup) {F : ParseFaults} {entries : List Json}
    (hd : KeysArray E doc entries) (h : jwksParse E F (some doc) (some pool) = some J) :
    keysetOffers E J = jwksOffers E entries := by
  ext o
  constructor
  · rintro ⟨k, hk, rfl⟩
    obtain ⟨entries', e, m, hd', he, ho⟩ := mem_of_jwksParse h hk
    obtain rfl := hd.unique hd'
    exact ⟨e, he, m, ho.usable, (ho.offer_eq hg).symm⟩
  · rintro ⟨e, he, m, hm, rfl⟩
    obtain ⟨k, hk, ho⟩ := usable_mem_of_jwksParse h hd he hm
    exact ⟨k, hk, ho.offer_eq hg⟩

/-- When no step fails, the keyset of a keyval document offers what its members do. -/
theorem keysetOffers_of_keyvalParse {members : List (Bytes × Json)}
    (hd : KeyvalMembers E doc members)
    (h : keyvalParse E noParseFaults (some doc) (some pool) = some J) :
    keysetOffers E J = keyvalOffers E members := by
  ext o
  constructor
  · rintro ⟨k, hk, rfl⟩
    obtain ⟨members', member, pkey, hd', hm, ho⟩ := mem_of_keyvalParse h hk
    obtain rfl := hd.unique hd'
    exact ⟨member, hm, pkey, ho.usable, ho.offer_eq.symm⟩
  · rintro ⟨member, hm, pkey, hp, rfl⟩
    obtain ⟨J', hJ', k, hk, ho⟩ := pemMember_mem_of_keyvalParse pool hd hm hp
    obtain rfl := Option.some.inj (h.symm.trans hJ')
    exact ⟨k, hk, ho.offer_eq⟩

/-- A JWKS has a keyset exactly when it publishes offers. -/
theorem jwksParse_iff_publishes (hg : E.ossl.EcGroup) (S : Set Offer) :
    JwksPublishes E doc S ↔
      ∃ J, jwksParse E noParseFaults (some doc) (some pool) = some J ∧ keysetOffers E J = S := by
  constructor
  · rintro ⟨⟨entries, hd, rfl, hsound⟩, o, e, he, m, hm, -⟩
    cases hJ : jwksParse E noParseFaults (some doc) (some pool) with
    | some J => exact ⟨J, rfl, keysetOffers_of_jwksParse hg hd hJ⟩
    | none =>
      rcases (jwksParse_none_iff_aborts hd pool).mp hJ with ⟨e', he', hs, ha⟩ | hno
      · exact absurd ha (hsound e' he' hs)
      · exact absurd hm (hno e he m)
  · rintro ⟨J, hJ, rfl⟩
    obtain ⟨entries, hd, -, hne, -⟩ := jwksParse_some hJ
    refine ⟨⟨entries, hd, keysetOffers_of_jwksParse hg hd hJ, ?_⟩, ?_⟩
    · intro e he hs ha
      have hnone := jwksParse_of_aborts hd he hs ha noParseFaults pool
      exact absurd (hJ.symm.trans hnone) (by simp)
    · obtain ⟨k, hk⟩ := List.exists_mem_of_ne_nil _ hne
      exact ⟨_, k, hk, rfl⟩

/-- A keyval document has a keyset exactly when it publishes offers. -/
theorem keyvalParse_iff_publishes (S : Set Offer) :
    KeyvalPublishes E doc S ↔
      ∃ J, keyvalParse E noParseFaults (some doc) (some pool) = some J ∧ keysetOffers E J = S := by
  constructor
  · rintro ⟨⟨members, hd, rfl⟩, o, member, hm, pkey, hp, -⟩
    obtain ⟨J, hJ, -⟩ := pemMember_mem_of_keyvalParse pool hd hm hp
    exact ⟨J, hJ, keysetOffers_of_keyvalParse hd hJ⟩
  · rintro ⟨J, hJ, rfl⟩
    obtain ⟨members, hd, -, hne⟩ := keyvalParse_some hJ
    obtain ⟨k, hk⟩ := List.exists_mem_of_ne_nil _ hne
    exact ⟨⟨members, hd, keysetOffers_of_keyvalParse hd hJ⟩, _, k, hk, rfl⟩

end Documents

/-! ## 4. From document and token to the verdict -/

/-- The calls of a caller: the token is decoded and verified against a parsed keyset. -/
def verifyText (E : Env PKey) (T : Bytes) (keyset : Option (Jwks PKey)) (pool : Pool) : Rc :=
  jwsVerify E (primitive E) (decode E noDecodeFaults (some T) (some pool)) keyset (some pool)

section Verdict

variable {keyset : Option (Jwks PKey)} {publishes : Set Offer → Prop}

/-- The verdict, for any parse that gives a keyset exactly when its document publishes offers. -/
theorem verifyText_ok_iff (T : Bytes) (pool : Pool)
    (hp : ∀ S, publishes S ↔ ∃ J, keyset = some J ∧ keysetOffers E J = S)
    (hinv : ∀ J, keyset = some J → ∀ k ∈ J.walk, KeyInv E.ossl k) :
    verifyText E T keyset pool = .ok ↔
      ∃ S h p s t, publishes S ∧ Decoded E T h p s t ∧ Judged E S t := by
  constructor
  · intro hok
    unfold verifyText at hok
    cases hd : decode E noDecodeFaults (some T) (some pool) with
    | none =>
      rw [hd, jwsVerify_error_iff.mpr (.inl rfl)] at hok
      exact absurd hok (by simp)
    | some t =>
      cases hk : keyset with
      | none =>
        rw [hk, jwsVerify_error_iff.mpr (.inr (.inl rfl))] at hok
        exact absurd hok (by simp)
      | some J =>
        rw [hd, hk, jwsVerify_ok_iff, policyAccepts_iff_judged (hinv J hk)] at hok
        obtain ⟨h, p, s, hdec⟩ := decode_sound hd
        exact ⟨keysetOffers E J, h, p, s, t, (hp _).mpr ⟨J, hk, rfl⟩, hdec, hok⟩
  · rintro ⟨S, h, p, s, t, hS, hdec, hj⟩
    obtain ⟨J, hk, rfl⟩ := (hp S).mp hS
    rw [verifyText, decode_complete hdec, hk, jwsVerify_ok_iff,
      policyAccepts_iff_judged (hinv J hk)]
    exact hj

/-- An error means that one of the two texts is at fault. -/
theorem verifyText_error_iff (T : Bytes) (pool : Pool)
    (hp : ∀ S, publishes S ↔ ∃ J, keyset = some J ∧ keysetOffers E J = S) :
    verifyText E T keyset pool = .error ↔
      (¬ ∃ S, publishes S) ∨ ¬ ∃ h p s t, Decoded E T h p s t := by
  have hkeyset : keyset = none ↔ ¬ ∃ S, publishes S := by
    simp only [hp]
    rw [not_exists, Option.eq_none_iff_forall_ne_some]
    exact ⟨fun h S ⟨J, hk, _⟩ => h J hk, fun h J hk => h _ ⟨J, hk, rfl⟩⟩
  have htoken : decode E noDecodeFaults (some T) (some pool) = none ↔
      ¬ ∃ h p s t, Decoded E T h p s t := by
    rw [Option.eq_none_iff_forall_ne_some]
    constructor
    · rintro h ⟨hd, p, s, t, hdec⟩
      exact h t (decode_complete hdec)
    · intro h t hd
      obtain ⟨hd, p, s, hdec⟩ := decode_sound hd
      exact h ⟨hd, p, s, t, hdec⟩
  rw [verifyText, jwsVerify_error_iff, hkeyset, htoken]
  simp only [reduceCtorEq, or_false]
  exact or_comm

end Verdict

/-- A keyval document offers under names only, so a token that names a key is judged by the
members of that name. -/
theorem judged_keyval_iff {members : List (Bytes × Json)} {t : Token} :
    Judged E (keyvalOffers E members) t ↔
      t.signature ≠ [] ∧ ∃ alg ∈ algs E.haveHmac, alg.name = t.alg ∧
        ∃ member ∈ members, ∃ pkey, PemMember E member pkey ∧
          (∀ kid, tokenKid (some t) = some kid → member.1 = kid) ∧
          (pemOffer E member.1 pkey).Serves alg ∧
          handleTrial E pkey alg t.signingInput t.signature = .accepted := by
  have hlabelled : ∀ o ∈ keyvalOffers E members, o.label ≠ none := by
    rintro - ⟨member, -, pkey, -, rfl⟩
    exact Option.some_ne_none _
  simp only [Judged, admits_iff_of_labelled hlabelled]
  constructor
  · rintro ⟨hsig, alg, ha, hn, -, ⟨member, hm, pkey, hp, rfl⟩, hkid, hserves, hacc⟩
    exact ⟨hsig, alg, ha, hn, member, hm, pkey, hp, fun kid hw => Option.some.inj (hkid kid hw),
      hserves, hacc⟩
  · rintro ⟨hsig, alg, ha, hn, member, hm, pkey, hp, hkid, hserves, hacc⟩
    exact ⟨hsig, alg, ha, hn, _, ⟨member, hm, pkey, hp, rfl⟩,
      fun kid hw => congrArg some (hkid kid hw), hserves, hacc⟩

/-- **Verification is a judgement on the two texts.**  Parsing a document, decoding a token and
verifying the one against the other, no step failing for want of memory:

* it succeeds exactly when the document publishes offers, the token decodes, and the offers of
  the document admit it;
* it is an error exactly when the document publishes none or the token does not decode;
* against a keyval document, a token that names a key is judged by the members of that name. -/
theorem verification_refines_documents (hl : E.ossl.KeyLaws) (doc T : Bytes) (pool : Pool) :
    (verifyText E T (jwksParse E noParseFaults (some doc) (some pool)) pool = .ok ↔
      ∃ S h p s t, JwksPublishes E doc S ∧ Decoded E T h p s t ∧ Judged E S t) ∧
    (verifyText E T (jwksParse E noParseFaults (some doc) (some pool)) pool = .error ↔
      (¬ ∃ S, JwksPublishes E doc S) ∨ ¬ ∃ h p s t, Decoded E T h p s t) ∧
    (verifyText E T (keyvalParse E noParseFaults (some doc) (some pool)) pool = .ok ↔
      ∃ members h p s t, KeyvalMembers E doc members ∧ Decoded E T h p s t ∧
        t.signature ≠ [] ∧ ∃ alg ∈ algs E.haveHmac, alg.name = t.alg ∧
          ∃ member ∈ members, ∃ pkey, PemMember E member pkey ∧
            (∀ kid, tokenKid (some t) = some kid → member.1 = kid) ∧
            (pemOffer E member.1 pkey).Serves alg ∧
            handleTrial E pkey alg t.signingInput t.signature = .accepted) ∧
    (verifyText E T (keyvalParse E noParseFaults (some doc) (some pool)) pool = .error ↔
      (¬ ∃ S, KeyvalPublishes E doc S) ∨ ¬ ∃ h p s t, Decoded E T h p s t) := by
  have hg : E.ossl.EcGroup := hl.group
  have hjwks : ∀ J, jwksParse E noParseFaults (some doc) (some pool) = some J →
      ∀ k ∈ J.walk, KeyInv E.ossl k :=
    fun J hJ k hk => (keyInv_of_returned hl (.inl ⟨_, _, _, hJ⟩) hk).1
  have hkeyval : ∀ J, keyvalParse E noParseFaults (some doc) (some pool) = some J →
      ∀ k ∈ J.walk, KeyInv E.ossl k :=
    fun J hJ k hk => (keyInv_of_returned hl (.inr ⟨_, _, _, hJ⟩) hk).1
  refine ⟨verifyText_ok_iff T pool (jwksParse_iff_publishes hg) hjwks,
    verifyText_error_iff T pool (jwksParse_iff_publishes hg), ?_,
    verifyText_error_iff T pool keyvalParse_iff_publishes⟩
  rw [verifyText_ok_iff T pool keyvalParse_iff_publishes hkeyval]
  constructor
  · rintro ⟨-, h, p, s, t, ⟨⟨members, hd, rfl⟩, -⟩, hdec, hj⟩
    exact ⟨members, h, p, s, t, hd, hdec, judged_keyval_iff.mp hj⟩
  · rintro ⟨members, h, p, s, t, hd, hdec, hsig, alg, ha, hn, member, hm, pkey, hp, hrest⟩
    refine ⟨keyvalOffers E members, h, p, s, t, ⟨⟨members, hd, rfl⟩, ?_⟩, hdec, ?_⟩
    · exact ⟨_, member, hm, pkey, hp, rfl⟩
    · exact judged_keyval_iff.mpr ⟨hsig, alg, ha, hn, member, hm, pkey, hp, hrest⟩

/-- The Ed25519 token, judged on the two documents with its key. -/
theorem verification_refines_documents_ed25519 :
    (∃ S h p s t, JwksPublishes (edFacts []).env edJwks.1 S ∧
      Decoded (edFacts []).env edToken h p s t ∧ Judged (edFacts []).env S t) ∧
    ∃ members h p s t, KeyvalMembers (edFacts []).env edKeyval.1 members ∧
      Decoded (edFacts []).env edToken h p s t ∧ t.signature ≠ [] := by
  have hjwks := @verification_refines_documents _ (edFacts []).env (edFacts []).keyLaws edJwks.1
    edToken ⟨⟩
  have hkeyval := @verification_refines_documents _ (edFacts []).env (edFacts []).keyLaws edKeyval.1
    edToken ⟨⟩
  refine ⟨hjwks.1.mp ?_, ?_⟩
  · rw [verifyText, decode_edToken]
    decide +kernel
  · obtain ⟨members, h, p, s, t, hd, hdec, hsig, -⟩ := hkeyval.2.2.1.mp (by
      rw [verifyText, decode_edToken]
      decide +kernel)
    exact ⟨members, h, p, s, t, hd, hdec, hsig⟩

end NxeJwx
