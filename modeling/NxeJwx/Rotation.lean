/-
# Keysets put together

A key is rotated by publishing the old and the new keys together for a while.  This module says
what the merged document accepts in terms of what the two documents accept alone.

A token without a kid is accepted with either.  For a token with a kid the kids decide: if one
keyset has the kid and the other has not, the other one has no say, not even with the keys without
a kid that it accepts the token with alone (`eligible_union`).  So new keys may take acceptance
away, but only by carrying the kid of the token (`key_rotation`).
-/
import NxeJwx.KeyOrder

namespace NxeJwx

open FillSlots

variable {PKey : Type} {E : Env PKey} {crypto : Crypto PKey}

/-! ## 1. Keysets -/

/-- `J` holds the keys of both keysets. -/
def Union (J J₁ J₂ : Jwks PKey) : Prop := ∀ k, k ∈ J.walk ↔ k ∈ J₁.walk ∨ k ∈ J₂.walk

variable {J J₁ J₂ : Jwks PKey}

theorem Union.symm (h : Union J J₁ J₂) : Union J J₂ J₁ := fun k => (h k).trans or_comm

/-- Some key has the property in the union if one has it in either keyset. -/
theorem Union.exists_iff (h : Union J J₁ J₂) {P : Key PKey → Prop} :
    (∃ k ∈ J.walk, P k) ↔ (∃ k ∈ J₁.walk, P k) ∨ ∃ k ∈ J₂.walk, P k := by
  simp only [h _, or_and_right, exists_or]

/-- The other keyset has no say over the keys of this one, unless it has the kid alone. -/
theorem Union.eligible (h : Union J J₁ J₂) (t : Token) {k : Key PKey} (hk : k ∈ J₁.walk) :
    Eligible J (tokenKid (some t)) k ↔ Eligible J₁ (tokenKid (some t)) k ∧
      (hasKid (some J₂) (tokenKid (some t)) = true →
        hasKid (some J₁) (tokenKid (some t)) = true) := by
  cases hkid : tokenKid (some t) with
  | none => simp [hasKid, findByKid]
  | some id =>
    have hid : id ≠ [] := (tokenKid_eq_some_iff.mp hkid).2
    have hhas : ∀ J : Jwks PKey, hasKid (some J) (some id) = true ↔ ∃ k ∈ J.walk, k.kid = id :=
      fun J => hasKid_iff.trans (and_iff_right hid)
    rw [hhas, hhas]
    by_cases h₁ : ∃ k ∈ J₁.walk, k.kid = id
    · -- both select by the kid
      rw [eligible_of_labelled (h.exists_iff.mpr (.inl h₁)), eligible_of_labelled h₁]
      exact (and_iff_left fun _ => h₁).symm
    have h₁' : ∀ k ∈ J₁.walk, k.kid ≠ id := fun k hk hkid => h₁ ⟨k, hk, hkid⟩
    by_cases h₂ : ∃ k ∈ J₂.walk, k.kid = id
    · -- the union selects by the kid, which no key here has
      rw [eligible_of_labelled (h.exists_iff.mpr (.inr h₂))]
      exact ⟨fun hkid => absurd hkid (h₁' k hk), fun hboth => absurd (hboth.2 h₂) h₁⟩
    · have hno : ∀ k ∈ J.walk, k.kid ≠ id := by
        intro k hk hkid
        have hex : ∃ k ∈ J.walk, k.kid = id := ⟨k, hk, hkid⟩
        rcases h.exists_iff.mp hex with h' | h'
        · exact h₁ h'
        · exact h₂ h'
      rw [eligible_of_unlabelled hno, eligible_of_unlabelled h₁']
      exact (and_iff_left fun h' => absurd h' h₂).symm

/-- What one keyset contributes to the union. -/
theorem Union.accepts (h : Union J J₁ J₂) (t : Token) :
    PolicyAccepts E crypto t J ↔
      (PolicyAccepts E crypto t J₁ ∧ (hasKid (some J₂) (tokenKid (some t)) = true →
        hasKid (some J₁) (tokenKid (some t)) = true)) ∨
      (PolicyAccepts E crypto t J₂ ∧ (hasKid (some J₁) (tokenKid (some t)) = true →
        hasKid (some J₂) (tokenKid (some t)) = true)) := by
  have hside : ∀ {J₁ J₂ : Jwks PKey}, Union J J₁ J₂ → ∀ alg : Alg,
      (∃ k ∈ J₁.walk, Eligible J (tokenKid (some t)) k ∧ keyCompatible E.ossl k alg = true ∧
        crypto k alg t.signingInput t.signature = .accepted) ↔
      (∃ k ∈ J₁.walk, Eligible J₁ (tokenKid (some t)) k ∧ keyCompatible E.ossl k alg = true ∧
        crypto k alg t.signingInput t.signature = .accepted) ∧
      (hasKid (some J₂) (tokenKid (some t)) = true →
        hasKid (some J₁) (tokenKid (some t)) = true) := by
    intro J₁ J₂ h alg
    constructor
    · rintro ⟨k, hk, hel, hacc⟩
      obtain ⟨hel, hsay⟩ := (h.eligible t hk).mp hel
      exact ⟨⟨k, hk, hel, hacc⟩, hsay⟩
    · rintro ⟨⟨k, hk, hel, hacc⟩, hsay⟩
      exact ⟨k, hk, (h.eligible t hk).mpr ⟨hel, hsay⟩, hacc⟩
  constructor
  · rintro ⟨alg, ha, hname, hne, hsig, hkey⟩
    rcases h.exists_iff.mp hkey with hkey | hkey
    · obtain ⟨hkey, hsay⟩ := (hside h alg).mp hkey
      exact .inl ⟨⟨alg, ha, hname, hne, hsig, hkey⟩, hsay⟩
    · obtain ⟨hkey, hsay⟩ := (hside h.symm alg).mp hkey
      exact .inr ⟨⟨alg, ha, hname, hne, hsig, hkey⟩, hsay⟩
  · rintro (⟨⟨alg, ha, hname, hne, hsig, hkey⟩, hsay⟩ | ⟨⟨alg, ha, hname, hne, hsig, hkey⟩, hsay⟩)
    · exact ⟨alg, ha, hname, hne, hsig, h.exists_iff.mpr (.inl ((hside h alg).mpr ⟨hkey, hsay⟩))⟩
    · exact ⟨alg, ha, hname, hne, hsig,
        h.exists_iff.mpr (.inr ((hside h.symm alg).mpr ⟨hkey, hsay⟩))⟩

/-- A raw verification by kid tries the keys of both. -/
theorem Union.verifyRawByKid (h : Union J J₁ J₂) (kid alg msg sig : Option Bytes)
    (pool : Option Pool) : jwksVerifyRawByKid E crypto (some J) kid alg msg sig pool = .ok ↔
      jwksVerifyRawByKid E crypto (some J₁) kid alg msg sig pool = .ok ∨
        jwksVerifyRawByKid E crypto (some J₂) kid alg msg sig pool = .ok := by
  match kid, msg, sig, pool with
  | none, _, _, _ => simp [jwksVerifyRawByKid]
  | some _, none, _, _ => simp [jwksVerifyRawByKid]
  | some _, some _, none, _ => simp [jwksVerifyRawByKid]
  | some _, some _, some _, none => simp [jwksVerifyRawByKid]
  | some kid, some msg, some sig, some pool =>
    simp only [jwksVerifyRawByKid_ok_iff, h.exists_iff, and_or_left]

theorem Union.hasKid (h : Union J J₁ J₂) (kid : Option Bytes) :
    NxeJwx.hasKid (some J) kid = (NxeJwx.hasKid (some J₁) kid || NxeJwx.hasKid (some J₂) kid) := by
  cases kid with
  | none => rfl
  | some kid =>
    rw [Bool.eq_iff_iff, Bool.or_eq_true]
    simp only [hasKid_iff, h.exists_iff, and_or_left]

theorem Union.hasThumbprint (h : Union J J₁ J₂) (tp : Option Bytes) :
    NxeJwx.hasThumbprint (some J) tp =
      (NxeJwx.hasThumbprint (some J₁) tp || NxeJwx.hasThumbprint (some J₂) tp) := by
  cases tp with
  | none => rfl
  | some tp =>
    rw [Bool.eq_iff_iff, Bool.or_eq_true]
    simp only [hasThumbprint_iff, h.exists_iff, and_or_left]

/-- A raw verification by thumbprint stops at the first key with it. -/
theorem jwksVerifyRaw_append (h : J.walk = J₁.walk ++ J₂.walk) (tp alg msg sig : Option Bytes)
    (pool : Option Pool) : jwksVerifyRaw E crypto (some J) tp alg msg sig pool =
      if hasThumbprint (some J₁) tp then jwksVerifyRaw E crypto (some J₁) tp alg msg sig pool
      else jwksVerifyRaw E crypto (some J₂) tp alg msg sig pool := by
  match tp, msg, sig, pool with
  | none, _, _, _ => rfl
  | some _, none, _, _ => simp [jwksVerifyRaw]
  | some _, some _, none, _ => simp [jwksVerifyRaw]
  | some _, some _, some _, none => simp [jwksVerifyRaw]
  | some tp, some msg, some sig, some pool =>
    have hfirst : findByThumbprint (some J) (some tp) =
        (findByThumbprint (some J₁) (some tp)).or (findByThumbprint (some J₂) (some tp)) := by
      by_cases htp : tp = []
      · subst htp
        rfl
      · rw [findByThumbprint_eq htp, findByThumbprint_eq htp, findByThumbprint_eq htp, h,
          List.find?_append]
    cases hf : findByThumbprint (some J₁) (some tp) with
    | none => simp [jwksVerifyRaw, hfirst, NxeJwx.hasThumbprint, hf]
    | some k => simp [jwksVerifyRaw, hfirst, NxeJwx.hasThumbprint, hf]

/-! ## 2. Documents -/

variable {doc doc₁ doc₂ : Bytes} {entries entries₁ entries₂ : List Json}

/-- Documents whose entries are those of two others, in any order, give the keys of both. -/
theorem jwksParse_merged (h : KeysArray E doc entries) (h₁ : KeysArray E doc₁ entries₁)
    (h₂ : KeysArray E doc₂ entries₂) (hperm : entries.Perm (entries₁ ++ entries₂))
    (pool : Pool) {pool₁ pool₂ : Pool}
    (hJ₁ : jwksParse E noParseFaults (some doc₁) (some pool₁) = some J₁)
    (hJ₂ : jwksParse E noParseFaults (some doc₂) (some pool₂) = some J₂) :
    ∃ J, jwksParse E noParseFaults (some doc) (some pool) = some J ∧
      J.walk.Perm (J₁.walk ++ J₂.walk) ∧
      (entries = entries₁ ++ entries₂ → J.walk = J₁.walk ++ J₂.walk) := by
  have hsome : jwksParse E noParseFaults (some doc) (some pool) ≠ none := by
    have hno : ∀ {doc entries} {pool : Pool} {J : Jwks PKey}, KeysArray E doc entries →
        jwksParse E noParseFaults (some doc) (some pool) = some J →
        (∀ e ∈ entries, (parsedAlone E e).1 ≠ .error) ∧
          ∃ e ∈ entries, (parsedAlone E e).1 = .ok := by
      intro doc entries pool J hd hJ
      have hne : jwksParse E noParseFaults (some doc) (some pool) ≠ none := by rw [hJ]; simp
      rw [ne_eq, jwksParse_eq_none_iff hd] at hne
      push Not at hne
      exact hne
    obtain ⟨herr₁, e, he, hok⟩ := hno h₁ hJ₁
    obtain ⟨herr₂, -⟩ := hno h₂ hJ₂
    rw [ne_eq, jwksParse_eq_none_iff h]
    rintro (⟨e', he', herr⟩ | hall)
    · rcases List.mem_append.mp (hperm.mem_iff.mp he') with he' | he'
      · exact herr₁ e' he' herr
      · exact herr₂ e' he' herr
    · exact hall e (hperm.mem_iff.mpr (List.mem_append_left _ he)) hok
  obtain ⟨J, hJ⟩ := Option.ne_none_iff_exists'.mp hsome
  have hboth : ((usableEntries E (entries₁ ++ entries₂)).map fun e => (parsedAlone E e).2) =
      J₁.walk ++ J₂.walk := by
    rw [walk_of_jwksParse h₁ hJ₁, walk_of_jwksParse h₂ hJ₂, ← List.map_append]
    exact congrArg (List.map _) (List.filter_append ..)
  refine ⟨J, hJ, ?_, ?_⟩
  · rw [← hboth, walk_of_jwksParse h hJ]
    exact (hperm.filter _).map _
  · rintro rfl
    rw [walk_of_jwksParse h hJ, hboth]

/-- **Rotating keys.**  A document whose `keys` array holds the entries of two documents, each of
which gives a keyset, gives a keyset with the keys of both, if its size and the number of its
entries are admissible and no step fails.  It accepts a token exactly if one of the two accepts it
and the other does not have the kid of the token alone; a raw verification by kid and the lookups
succeed if they do with either; and a raw verification by thumbprint goes to the first of the two
that has the thumbprint, if the entries are appended. -/
theorem key_rotation (crypto : Crypto PKey) (h : KeysArray E doc entries)
    (h₁ : KeysArray E doc₁ entries₁) (h₂ : KeysArray E doc₂ entries₂)
    (hperm : entries.Perm (entries₁ ++ entries₂)) (pool : Pool)
    (hJ₁ : jwksParse E noParseFaults (some doc₁) (some pool) = some J₁)
    (hJ₂ : jwksParse E noParseFaults (some doc₂) (some pool) = some J₂) :
    ∃ J, jwksParse E noParseFaults (some doc) (some pool) = some J ∧
      J.nkeys = J₁.nkeys + J₂.nkeys ∧ J.walk.Perm (J₁.walk ++ J₂.walk) ∧
      (entries = entries₁ ++ entries₂ → J.walk = J₁.walk ++ J₂.walk) ∧
      (∀ t pool, jwsVerify E crypto (some t) (some J) (some pool) = .ok ↔
        (jwsVerify E crypto (some t) (some J₁) (some pool) = .ok ∧
          (hasKid (some J₂) (tokenKid (some t)) = true →
            hasKid (some J₁) (tokenKid (some t)) = true)) ∨
        (jwsVerify E crypto (some t) (some J₂) (some pool) = .ok ∧
          (hasKid (some J₁) (tokenKid (some t)) = true →
            hasKid (some J₂) (tokenKid (some t)) = true))) ∧
      (∀ kid alg msg sig pool, jwksVerifyRawByKid E crypto (some J) kid alg msg sig pool = .ok ↔
        jwksVerifyRawByKid E crypto (some J₁) kid alg msg sig pool = .ok ∨
          jwksVerifyRawByKid E crypto (some J₂) kid alg msg sig pool = .ok) ∧
      (∀ kid, hasKid (some J) kid = (hasKid (some J₁) kid || hasKid (some J₂) kid)) ∧
      (∀ tp, hasThumbprint (some J) tp =
        (hasThumbprint (some J₁) tp || hasThumbprint (some J₂) tp)) ∧
      (entries = entries₁ ++ entries₂ → ∀ tp alg msg sig pool,
        jwksVerifyRaw E crypto (some J) tp alg msg sig pool =
          if hasThumbprint (some J₁) tp then
            jwksVerifyRaw E crypto (some J₁) tp alg msg sig pool
          else jwksVerifyRaw E crypto (some J₂) tp alg msg sig pool) := by
  obtain ⟨J, hJ, hwalk, happ⟩ := jwksParse_merged h h₁ h₂ hperm pool hJ₁ hJ₂
  have hunion : Union J J₁ J₂ := fun k => hwalk.mem_iff.trans List.mem_append
  refine ⟨J, hJ, ?_, hwalk, happ, ?_, hunion.verifyRawByKid, hunion.hasKid,
    hunion.hasThumbprint, fun heq => jwksVerifyRaw_append (happ heq)⟩
  · rw [nkeys_of_jwksParse hJ, nkeys_of_jwksParse hJ₁, nkeys_of_jwksParse hJ₂, hwalk.length_eq,
      List.length_append]
  · intro t pool
    simp only [jwsVerify_ok_iff]
    exact hunion.accepts t

/-- The text of the Ed25519 key as `k1`, for another algorithm. -/
def edSuccessorText : Bytes :=
  ascii "\x7b\"kty\":\"OKP\",\"crv\":\"Ed25519\",\"x\":\"" ++ edX64 ++
    ascii "\",\"kid\":\"k1\",\"alg\":\"Ed25519\"\x7d"

/-- Its value. -/
def edSuccessorJwk : Json :=
  edJwk [(ascii "kid", .string (ascii "k1")), (ascii "alg", .string (ascii "Ed25519"))]

/-- A JWKS that holds it. -/
def edSuccessor : Bytes × Json :=
  ( ascii "\x7b\"keys\":[" ++ edSuccessorText ++ ascii "]\x7d",
    .object [(ascii "keys", .array [edSuccessorJwk])] )

/-- A JWKS that holds it and the key without labels. -/
def edRotated : Bytes × Json :=
  ( ascii "\x7b\"keys\":[\x7b\"kty\":\"OKP\",\"crv\":\"Ed25519\",\"x\":\"" ++ edX64 ++
      ascii "\"\x7d," ++ edSuccessorText ++ ascii "]\x7d",
    .object [(ascii "keys", .array [edJwk [], edSuccessorJwk])] )

/-- The facts about both. -/
def edRotation : Facts := edFacts [edSuccessor, edRotated]

/-- The token with the kid `k1` is accepted with the key without a kid, but no longer once a key
has that kid, which the algorithm of the token is not for. -/
theorem key_rotation_ed25519 :
    jwsVerify edRotation.env (primitive edRotation.env) (some edNamedDecoded)
        (some (.ofList [edKey []])) (some ⟨⟩) = .ok ∧
      ∃ J, jwksParse edRotation.env noParseFaults (some edRotated.1) (some ⟨⟩) = some J ∧
        jwsVerify edRotation.env (primitive edRotation.env) (some edNamedDecoded) (some J)
          (some ⟨⟩) ≠ .ok := by
  have hd : KeysArray edRotation.env edRotated.1 ([edJwk []] ++ [edSuccessorJwk]) :=
    ⟨by decide +kernel, ⟨edRotated.2, @Facts.parse_eq _ [edJwks, edKeyval, edSuccessor] _ edRotated
      rfl (by decide +kernel) (by decide +kernel), rfl, rfl⟩, by decide⟩
  have hd₁ : KeysArray edRotation.env edJwks.1 [edJwk []] :=
    ⟨by decide +kernel, ⟨edJwks.2, @Facts.parse_eq _ [] _ edJwks rfl rfl (by decide +kernel), rfl,
      rfl⟩, by decide⟩
  have hd₂ : KeysArray edRotation.env edSuccessor.1 [edSuccessorJwk] :=
    ⟨by decide +kernel, ⟨edSuccessor.2, @Facts.parse_eq _ [edJwks, edKeyval] _ edSuccessor rfl
      (by decide +kernel) (by decide +kernel), rfl, rfl⟩, by decide⟩
  have hJ₁ : jwksParse edRotation.env noParseFaults (some edJwks.1) (some ⟨⟩) =
      some (.ofList [edKey []]) := by decide +kernel
  have hJ₂ : jwksParse edRotation.env noParseFaults (some edSuccessor.1) (some ⟨⟩) =
      some (.ofList [{ edKey (ascii "k1") with alg := ascii "Ed25519" }]) := by decide +kernel
  obtain ⟨J, hJ, -, -, -, hverify, -⟩ :=
    key_rotation (primitive edRotation.env) hd hd₁ hd₂ (.refl _) ⟨⟩ hJ₁ hJ₂
  refine ⟨by decide +kernel, J, hJ, (hverify edNamedDecoded ⟨⟩).not.mpr ?_⟩
  exact not_or.mpr ⟨by decide +kernel, by decide +kernel⟩

end NxeJwx
