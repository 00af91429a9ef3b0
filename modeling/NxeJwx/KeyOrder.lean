/-
# The order of the keys

Two JWKS documents whose `keys` arrays are permutations of each other.  The loop over the entries
stops early on a hard error and reuses slots, and the verifiers stop at the first success, so
the order is visible in what the code does; it is not visible in what it returns.

The parse gives the same keys in another order (`FillSlots.gather_perm`), and the requests of
this module ask of a keyset only whether some key has a property (`SameKeys`).  Raw verification
by thumbprint is not among them: it takes the FIRST key with the thumbprint.
-/
import NxeJwx.EntryList
import NxeJwx.ThumbprintSelection

namespace NxeJwx

open FillSlots

variable {PKey : Type} {E : Env PKey} {crypto : Crypto PKey} {J J' : Jwks PKey}

/-! ## 1. Keysets with the same keys -/

/-- The two keysets hold the same keys. -/
def SameKeys (J J' : Jwks PKey) : Prop := ∀ k, k ∈ J.walk ↔ k ∈ J'.walk

theorem SameKeys.eligible (h : SameKeys J J') {kid : Option Bytes} {k : Key PKey} :
    Eligible J kid k ↔ Eligible J' kid k := by
  have hk : ∀ k, k ∈ J.walk ↔ k ∈ J'.walk := h
  simp only [Eligible, hk]

theorem SameKeys.policyAccepts (h : SameKeys J J') (t : Token) :
    PolicyAccepts E crypto t J ↔ PolicyAccepts E crypto t J' := by
  have hk : ∀ k, k ∈ J.walk ↔ k ∈ J'.walk := h
  simp only [PolicyAccepts, hk, h.eligible]

theorem SameKeys.jwsVerify_eq (h : SameKeys J J') (token : Option Token) (pool : Option Pool) :
    jwsVerify E crypto token (some J) pool = jwsVerify E crypto token (some J') pool := by
  match token, pool with
  | none, _ => rfl
  | some _, none => rfl
  | some t, some p =>
    have hne : ∀ J : Jwks PKey, jwsVerify E crypto (some t) (some J) (some p) ≠ .error := by
      intro J he
      rcases jwsVerify_error_iff.mp he with he | he | he <;> exact absurd he (by simp)
    exact Rc.eq_of_ok_iff (hne J) (hne J')
      (by rw [jwsVerify_ok_iff, jwsVerify_ok_iff, h.policyAccepts])

theorem SameKeys.jwksVerifyRawByKid_eq (h : SameKeys J J') (kid algStr msg sig : Option Bytes)
    (pool : Option Pool) :
    jwksVerifyRawByKid E crypto (some J) kid algStr msg sig pool =
      jwksVerifyRawByKid E crypto (some J') kid algStr msg sig pool := by
  have hk : ∀ k, k ∈ J.walk ↔ k ∈ J'.walk := h
  match kid, msg, sig, pool with
  | none, _, _, _ => rfl
  | some _, none, _, _ => rfl
  | some _, some _, none, _ => rfl
  | some _, some _, some _, none => rfl
  | some kid, some msg, some sig, some p =>
    exact Rc.eq_of_ok_iff jwksVerifyRawByKid_ne_error jwksVerifyRawByKid_ne_error
      (by simp only [jwksVerifyRawByKid_ok_iff, hk])

theorem SameKeys.hasKid_eq (h : SameKeys J J') (kid : Option Bytes) :
    hasKid (some J) kid = hasKid (some J') kid := by
  have hk : ∀ k, k ∈ J.walk ↔ k ∈ J'.walk := h
  cases kid with
  | none => rfl
  | some kid =>
    rw [Bool.eq_iff_iff]
    simp only [hasKid_iff, hk]

theorem SameKeys.hasThumbprint_eq (h : SameKeys J J') (tp : Option Bytes) :
    hasThumbprint (some J) tp = hasThumbprint (some J') tp := by
  have hk : ∀ k, k ∈ J.walk ↔ k ∈ J'.walk := h
  cases tp with
  | none => rfl
  | some tp =>
    rw [Bool.eq_iff_iff]
    simp only [hasThumbprint_iff, hk]

/-! ## 2. Reordered documents -/

/-- `doc'` is `doc` with its `keys` array permuted, which does not change whether its size is
admissible. -/
structure Reordered (E : Env PKey) (doc doc' : Bytes) (entries entries' : List Json) : Prop where
  size : (doc.length ≠ 0 ∧ doc.length ≤ maxJwksSize) ↔
    (doc'.length ≠ 0 ∧ doc'.length ≤ maxJwksSize)
  parse : ∃ root, E.json.parseUntrusted doc = some root ∧
    root.objectGet (ascii "keys") = some (.array entries)
  parse' : ∃ root, E.json.parseUntrusted doc' = some root ∧
    root.objectGet (ascii "keys") = some (.array entries')
  perm : entries.Perm entries'

theorem isObject_of_objectGet {json v : Json} {name : Bytes} (h : json.objectGet name = some v) :
    json.isObject = true := by
  cases json <;> simp [Json.objectGet, Json.isObject] at h ⊢

variable {doc doc' : Bytes} {entries entries' : List Json}

theorem Reordered.symm (h : Reordered E doc doc' entries entries') :
    Reordered E doc' doc entries' entries :=
  ⟨h.size.symm, h.parse', h.parse, h.perm.symm⟩

/-- Both documents are admissible when one of them is. -/
theorem Reordered.keysArray (h : Reordered E doc doc' entries entries')
    (hd : KeysArray E doc entries) : KeysArray E doc' entries' := by
  obtain ⟨root, hp, hk⟩ := h.parse'
  refine ⟨h.size.mp hd.size, ⟨root, hp, isObject_of_objectGet hk, hk⟩, ?_⟩
  rw [← h.perm.length_eq]
  exact hd.count

/-- A keyset of the one document is a permutation of the keyset of the other, and there is one
for both or for none. -/
theorem Reordered.jwksParse_perm (h : Reordered E doc doc' entries entries') (pool pool' : Pool)
    {J : Jwks PKey} (hJ : jwksParse E noParseFaults (some doc) (some pool) = some J) :
    ∃ J', jwksParse E noParseFaults (some doc') (some pool') = some J' ∧ J.walk.Perm J'.walk := by
  obtain ⟨root, hp, hk⟩ := h.parse
  have hd := keysArray_of_jwksParse hp hk hJ
  have hg : (jwksParse E noParseFaults (some doc) (some pool)).map Jwks.walk = _ :=
    jwksParse_alone hd
  have hg' : (jwksParse E noParseFaults (some doc') (some pool')).map Jwks.walk = _ :=
    jwksParse_alone (h.keysArray hd)
  obtain ⟨hnone, hperm⟩ := gather_perm (h.perm.map (jwksAlone E))
  rw [hJ, Option.map_some] at hg
  cases hJ' : jwksParse E noParseFaults (some doc') (some pool') with
  | none =>
    rw [hJ', Option.map_none] at hg'
    rw [hnone.mpr hg'.symm] at hg
    exact absurd hg (by simp)
  | some J' =>
    rw [hJ', Option.map_some] at hg'
    exact ⟨J', rfl, hperm _ _ hg.symm hg'.symm⟩

/-- **The order of the keys does not matter.**  For a JWKS document and any permutation of its
`keys` array, no allocation failing: both give a keyset or neither does, the keysets have the
same number of keys, and every request of this module is answered alike. -/
theorem key_order (crypto : Crypto PKey) (h : Reordered E doc doc' entries entries')
    (pool pool' : Pool) :
    (jwksParse E noParseFaults (some doc) (some pool) = none ↔
      jwksParse E noParseFaults (some doc') (some pool') = none) ∧
    ∀ J J', jwksParse E noParseFaults (some doc) (some pool) = some J →
      jwksParse E noParseFaults (some doc') (some pool') = some J' →
      J.nkeys = J'.nkeys ∧
      (∀ token pool, jwsVerify E crypto token (some J) pool =
        jwsVerify E crypto token (some J') pool) ∧
      (∀ kid alg msg sig pool, jwksVerifyRawByKid E crypto (some J) kid alg msg sig pool =
        jwksVerifyRawByKid E crypto (some J') kid alg msg sig pool) ∧
      (∀ kid, hasKid (some J) kid = hasKid (some J') kid) ∧
      (∀ tp, hasThumbprint (some J) tp = hasThumbprint (some J') tp) := by
  constructor
  · constructor
    · intro hnone
      cases hJ' : jwksParse E noParseFaults (some doc') (some pool') with
      | none => rfl
      | some J' =>
        obtain ⟨J, hJ, -⟩ := h.symm.jwksParse_perm pool' pool hJ'
        rw [hnone] at hJ
        exact absurd hJ (by simp)
    · intro hnone
      cases hJ : jwksParse E noParseFaults (some doc) (some pool) with
      | none => rfl
      | some J =>
        obtain ⟨J', hJ', -⟩ := h.jwksParse_perm pool pool' hJ
        rw [hnone] at hJ'
        exact absurd hJ' (by simp)
  · intro J J' hJ hJ'
    obtain ⟨J'', hJ'', hperm⟩ := h.jwksParse_perm pool pool' hJ
    obtain rfl := Option.some.inj (hJ''.symm.trans hJ')
    have hsame : SameKeys J J'' := fun k => hperm.mem_iff
    refine ⟨?_, ?_, ?_, ?_, ?_⟩
    · rw [nkeys_of_jwksParse hJ, nkeys_of_jwksParse hJ', hperm.length_eq]
    · intro token pool
      exact hsame.jwsVerify_eq token pool
    · intro kid alg msg sig pool
      exact hsame.jwksVerifyRawByKid_eq kid alg msg sig pool
    · intro kid
      exact hsame.hasKid_eq kid
    · intro tp
      exact hsame.hasThumbprint_eq tp

/-- The twins the other way round. -/
def edTwinsSwapped : Bytes × Json :=
  ( ascii "\x7b\"keys\":[" ++ edPinnedText (ascii "EdDSA") ++ ascii "," ++
      edPinnedText (ascii "Ed25519") ++ ascii "]\x7d",
    .object [(ascii "keys", .array [ edJwk [(ascii "alg", .string (ascii "EdDSA"))],
      edJwk [(ascii "alg", .string (ascii "Ed25519"))] ])] )

/-- A token is verified against the twins in either order. -/
theorem key_order_ed25519 :
    jwsVerify (edFacts [edTwins, edTwinsSwapped]).env
        (primitive (edFacts [edTwins, edTwinsSwapped]).env) (some edDecoded) (some edTwinKeys)
        (some ⟨⟩) =
      jwsVerify (edFacts [edTwins, edTwinsSwapped]).env
        (primitive (edFacts [edTwins, edTwinsSwapped]).env) (some edDecoded)
        (some (.ofList [edPinned (ascii "EdDSA"), edPinned (ascii "Ed25519")])) (some ⟨⟩) := by
  have hreordered : Reordered (edFacts [edTwins, edTwinsSwapped]).env edTwins.1 edTwinsSwapped.1
      [edJwk [(ascii "alg", .string (ascii "Ed25519"))],
        edJwk [(ascii "alg", .string (ascii "EdDSA"))]]
      [edJwk [(ascii "alg", .string (ascii "EdDSA"))],
        edJwk [(ascii "alg", .string (ascii "Ed25519"))]] :=
    { size := by decide +kernel
      parse := ⟨edTwins.2, @Facts.parse_eq _ [edJwks, edKeyval] _ edTwins rfl
        (by decide +kernel) (by decide +kernel), rfl⟩
      parse' := ⟨edTwinsSwapped.2, @Facts.parse_eq _ [edJwks, edKeyval, edTwins] _ edTwinsSwapped
        rfl (by decide +kernel) (by decide +kernel), rfl⟩
      perm := .swap _ _ [] }
  exact ((key_order (primitive (edFacts [edTwins, edTwinsSwapped]).env) hreordered ⟨⟩ ⟨⟩).2
    edTwinKeys (.ofList [edPinned (ascii "EdDSA"), edPinned (ascii "Ed25519")])
    (by decide +kernel) (by decide +kernel)).2.1 (some edDecoded) (some ⟨⟩)

end NxeJwx
