/-
# The key-selection policy

What `nxe_jwx_jws_verify` and its two detached siblings decide, as existentials over the
keys of the keyset.

`Eligible` is the policy of the header comment: with a kid that some key carries, the keys
carrying it; with a kid that no key carries, the kid-less keys; without a kid, every key.
The two passes implement it (`passes_hit_iff`): the flag that pass 1 leaves behind is what
separates the first two cases.  From there each entry point is "some key that qualifies
accepts" (`jwsVerify_ok_iff`, `jwksVerifyRaw_ok_iff`, `jwksVerifyRawByKid_ok_iff`).
-/
import NxeJwx.Verify

namespace NxeJwx

open TryEach

variable {PKey : Type}

/-! ## 1. Eligible keys -/

/-- The keys of `J` that may verify a token with this kid. -/
def Eligible (J : Jwks PKey) (kid : Option Bytes) (k : Key PKey) : Prop :=
  ∀ id, kid = some id →
    ((∃ k' ∈ J.walk, k'.kid = id) → k.kid = id) ∧ ((∀ k' ∈ J.walk, k'.kid ≠ id) → k.kid = [])

@[simp] theorem eligible_none (J : Jwks PKey) (k : Key PKey) : Eligible J none k := by
  intro id h
  exact absurd h (by simp)

/-- With a kid that a key carries, the keys carrying it. -/
theorem eligible_of_labelled {J : Jwks PKey} {id : Bytes} {k : Key PKey}
    (h : ∃ k' ∈ J.walk, k'.kid = id) : Eligible J (some id) k ↔ k.kid = id := by
  constructor
  · intro he
    exact (he id rfl).1 h
  · intro hk id' h'
    obtain rfl := Option.some.inj h'
    refine ⟨fun _ => hk, ?_⟩
    intro hn
    obtain ⟨k', hk', hid⟩ := h
    exact absurd hid (hn k' hk')

/-- With a kid that no key carries, the kid-less keys. -/
theorem eligible_of_unlabelled {J : Jwks PKey} {id : Bytes} {k : Key PKey}
    (h : ∀ k' ∈ J.walk, k'.kid ≠ id) : Eligible J (some id) k ↔ k.kid = [] := by
  constructor
  · intro he
    exact (he id rfl).2 h
  · intro hk id' h'
    obtain rfl := Option.some.inj h'
    refine ⟨fun ⟨k', hk', hid⟩ => absurd hid (h k' hk'), fun _ => hk⟩

/-! ## 2. The two passes -/

/-- The test of pass 1 and of the raw lookup by kid. -/
theorem kid_test_iff {id : Bytes} (h : id ≠ []) (k : Key PKey) :
    (decide (k.kid.length ≠ 0) && strEq id k.kid) = true ↔ k.kid = id := by
  rw [Bool.and_eq_true, decide_eq_true_eq, strEq_iff]
  constructor
  · rintro ⟨-, e⟩; exact e.symm
  · rintro rfl
    exact ⟨fun e => h (List.length_eq_zero_iff.mp e), rfl⟩

/-- The passes implement the policy.  They end in a hit exactly when some eligible key is
accepted, whatever the other keys did. -/
theorem passes_hit_iff {verify : Key PKey → Trial} {kid : Option Bytes} (hkid : kid ≠ some [])
    (J : Jwks PKey) :
    (passes verify kid J).hit = true ↔
      ∃ k ∈ J.walk, Eligible J kid k ∧ verify k = .accepted := by
  cases kid with
  | none =>
    simp only [passes, Report.start, passTwo, Option.isSome_none, Bool.false_and,
      Bool.false_eq_true, if_false, Bool.not_false, tryEach_hit_iff, false_or, true_and,
      eligible_none]
  | some id =>
    have hid : id ≠ [] := fun e => hkid (by rw [e])
    have hhit : (passOne verify id J).hit = true ↔
        ∃ k ∈ J.walk, k.kid = id ∧ verify k = .accepted := by
      rw [passOne, tryEach_start_hit_iff]
      simp only [kid_test_iff hid]
    have hmat : (passOne verify id J).matched = true ↔ ∃ k ∈ J.walk, k.kid = id := by
      rw [passOne, tryEach_start_matched_iff]
      simp only [kid_test_iff hid]
    simp only [passes, Option.isSome_some, Bool.true_and]
    by_cases hl : ∃ k' ∈ J.walk, k'.kid = id
    · -- pass 1 found the kid: pass 2 is skipped, hit or not
      have hm := hmat.mpr hl
      simp only [hm, if_true, ite_self, hhit, eligible_of_labelled hl]
    · -- no key carries the kid: pass 1 did nothing and pass 2 tries the kid-less keys
      have hl' : ∀ k' ∈ J.walk, k'.kid ≠ id := fun k' hk' e => hl ⟨k', hk', e⟩
      have hm : (passOne verify id J).matched = false := by
        rw [Bool.eq_false_iff]; exact fun h => hl (hmat.mp h)
      have hh : (passOne verify id J).hit = false := by
        rw [Bool.eq_false_iff]
        intro h
        obtain ⟨k, hk, e, -⟩ := hhit.mp h
        exact hl' k hk e
      simp only [hh, hm, Bool.false_eq_true, if_false, passTwo, tryEach_hit_iff, false_or,
        eligible_of_unlabelled hl']
      simp only [Bool.true_and, Bool.not_eq_true', decide_eq_false_iff_not, gt_iff_lt,
        Nat.not_lt, Nat.le_zero, List.length_eq_zero_iff]

/-! ## 3. The entry points -/

variable {E : Env PKey} {crypto : Crypto PKey}

/-- The policy for one token: a known algorithm, a signature, and an eligible compatible key
that accepts. -/
def PolicyAccepts (E : Env PKey) (crypto : Crypto PKey) (t : Token) (J : Jwks PKey) : Prop :=
  ∃ alg ∈ algs E.haveHmac, alg.name = t.alg ∧ t.alg ≠ [] ∧ t.signature ≠ [] ∧
    ∃ k ∈ J.walk, Eligible J (tokenKid (some t)) k ∧ keyCompatible E.ossl k alg = true ∧
      crypto k alg t.signingInput t.signature = .accepted

theorem tokenKid_ne_some_nil (t : Token) : tokenKid (some t) ≠ some [] :=
  fun h => (tokenKid_eq_some_iff.mp h).2 rfl

/-- Against keyset and pool, a token is either accepted by the policy or declined. -/
theorem jwsVerify_cases (E : Env PKey) (crypto : Crypto PKey) (t : Token) (J : Jwks PKey)
    (pool : Pool) :
    (PolicyAccepts E crypto t J ∧ jwsVerify E crypto (some t) (some J) (some pool) = .ok) ∨
    (¬ PolicyAccepts E crypto t J ∧
      jwsVerify E crypto (some t) (some J) (some pool) = .declined) := by
  simp only [jwsVerify, jwsVerifyRun]
  cases hta : tokenAlg (some t) with
  | none =>
    refine .inr ⟨?_, rfl⟩
    rintro ⟨alg, -, -, hne, -⟩
    exact hne (tokenAlg_eq_none_iff.mp hta)
  | some s =>
    obtain ⟨hs, hne⟩ := tokenAlg_eq_some_iff.mp hta
    subst hs
    dsimp only
    by_cases hnone : isName t.alg (ascii "none") = true
    · rw [if_pos hnone]
      refine .inr ⟨?_, rfl⟩
      rintro ⟨alg, ha, hn, -⟩
      have := (isName_iff (by decide)).mp hnone
      exact (algs_name_ne _ alg ha).2 (hn.trans this)
    · rw [if_neg hnone]
      cases hlk : lookupAlg E.haveHmac t.alg with
      | none =>
        refine .inr ⟨?_, rfl⟩
        rintro ⟨alg, ha, hn, -⟩
        rw [← hn, lookupAlg_name ha] at hlk
        exact absurd hlk (by simp)
      | some alg =>
        obtain ⟨ha, hn⟩ := lookupAlg_eq_some_iff.mp hlk
        dsimp only
        by_cases hsig : t.signature.length = 0
        · rw [if_pos hsig]
          refine .inr ⟨?_, rfl⟩
          rintro ⟨-, -, -, -, h0, -⟩
          exact h0 (List.length_eq_zero_iff.mp hsig)
        · rw [if_neg hsig]
          have hsig0 : t.signature ≠ [] := fun e => hsig (List.length_eq_zero_iff.mpr e)
          have hpass : (passes (fun k => verifyWithKey E crypto k alg t.signingInput t.signature)
              (tokenKid (some t)) J).hit = true ↔ _ :=
            passes_hit_iff (tokenKid_ne_some_nil t) J
          simp only [verifyWithKey_accepted_iff] at hpass
          by_cases hp : (passes
              (fun k => verifyWithKey E crypto k alg t.signingInput t.signature)
              (tokenKid (some t)) J).hit = true
          · rw [if_pos hp]
            exact .inl ⟨⟨alg, ha, hn, hne, hsig0, hpass.mp hp⟩, rfl⟩
          · rw [if_neg hp]
            refine .inr ⟨?_, rfl⟩
            rintro ⟨alg', ha', hn', -, -, hk⟩
            have heq : lookupAlg E.haveHmac t.alg = some alg' :=
              lookupAlg_eq_some_iff.mpr ⟨ha', hn'⟩
            rw [hlk] at heq
            obtain rfl := Option.some.inj heq
            exact hp (hpass.mpr hk)

/-- A token verifies exactly when the policy accepts it. -/
theorem jwsVerify_ok_iff {t : Token} {J : Jwks PKey} {pool : Pool} :
    jwsVerify E crypto (some t) (some J) (some pool) = .ok ↔ PolicyAccepts E crypto t J := by
  rcases jwsVerify_cases E crypto t J pool with ⟨h1, h2⟩ | ⟨h1, h2⟩
  · exact ⟨fun _ => h1, fun _ => h2⟩
  · rw [h2]
    exact ⟨fun h => absurd h (by decide), fun h => absurd h h1⟩

/-- `NGX_ERROR` is for missing arguments only. -/
theorem jwsVerify_error_iff {token : Option Token} {jwks : Option (Jwks PKey)}
    {pool : Option Pool} :
    jwsVerify E crypto token jwks pool = .error ↔ token = none ∨ jwks = none ∨ pool = none := by
  match token, jwks, pool with
  | none, _, _ => simp [jwsVerify, jwsVerifyRun]
  | some _, none, _ => simp [jwsVerify, jwsVerifyRun]
  | some _, some _, none => simp [jwsVerify, jwsVerifyRun]
  | some t, some J, some p =>
    rcases jwsVerify_cases E crypto t J p with ⟨-, h⟩ | ⟨-, h⟩ <;> simp [h]

/-- A raw verification by thumbprint succeeds exactly when the FIRST key with that thumbprint
accepts. -/
theorem jwksVerifyRaw_ok_iff {J : Jwks PKey} {keyid msg sig : Bytes} {algStr : Option Bytes}
    {pool : Pool} :
    jwksVerifyRaw E crypto (some J) (some keyid) algStr (some msg) (some sig) (some pool) = .ok ↔
      sig ≠ [] ∧ ∃ k, findByThumbprint (some J) (some keyid) = some k ∧
        verifyRawWithKey E crypto k algStr msg sig = .ok := by
  simp only [jwksVerifyRaw]
  by_cases hs : sig.length = 0
  · simp [List.length_eq_zero_iff.mp hs]
  · have hs' : sig ≠ [] := fun e => hs (List.length_eq_zero_iff.mpr e)
    rw [if_neg hs]
    cases hf : findByThumbprint (some J) (some keyid) with
    | none => simp
    | some k => simp [hs']

/-- A raw verification by kid succeeds exactly when SOME key with that kid accepts. -/
theorem jwksVerifyRawByKid_ok_iff {J : Jwks PKey} {kid msg sig : Bytes}
    {algStr : Option Bytes} {pool : Pool} :
    jwksVerifyRawByKid E crypto (some J) (some kid) algStr (some msg) (some sig) (some pool)
        = .ok ↔
      sig ≠ [] ∧ kid ≠ [] ∧ ∃ k ∈ J.walk, k.kid = kid ∧
        verifyRawWithKey E crypto k algStr msg sig = .ok := by
  simp only [jwksVerifyRawByKid]
  by_cases hs : sig.length = 0
  · simp [List.length_eq_zero_iff.mp hs]
  · have hs' : sig ≠ [] := fun e => hs (List.length_eq_zero_iff.mpr e)
    have htrial : ∀ k : Key PKey, rawTrial E crypto algStr msg sig k = .accepted ↔
        verifyRawWithKey E crypto k algStr msg sig = .ok := by
      intro k
      unfold rawTrial
      cases verifyRawWithKey E crypto k algStr msg sig <;> simp
    have hite : ∀ b : Bool, (if b = true then Rc.ok else Rc.declined) = .ok ↔ b = true := by
      intro b; cases b <;> simp
    rw [if_neg hs, hite, tryEach_start_hit_iff]
    simp only [htrial]
    by_cases hk : kid = []
    · subst hk
      constructor
      · rintro ⟨k, -, ht, -⟩
        rw [Bool.and_eq_true, decide_eq_true_eq, strEq_iff] at ht
        exact absurd (by rw [← ht.2]; rfl) ht.1
      · rintro ⟨-, h, -⟩
        exact absurd rfl h
    · simp only [kid_test_iff hk]
      exact ⟨fun h => ⟨hs', hk, h⟩, fun h => h.2.2⟩

/-- With its arguments there, a raw verification by kid accepts or declines. -/
theorem jwksVerifyRawByKid_ne_error {J : Jwks PKey} {kid msg sig : Bytes}
    {algStr : Option Bytes} {pool : Pool} :
    jwksVerifyRawByKid E crypto (some J) (some kid) algStr (some msg) (some sig) (some pool)
      ≠ .error := by
  simp only [jwksVerifyRawByKid]
  split
  · decide
  · split <;> decide

/-- Two results that are no errors are equal when they are `NGX_OK` together. -/
theorem Rc.eq_of_ok_iff {r r' : Rc} (hr : r ≠ .error) (hr' : r' ≠ .error)
    (h : r = .ok ↔ r' = .ok) : r = r' := by
  cases r <;> cases r' <;> simp_all

/-! ## 4. The policy, stated once -/

/-- Key selection.  For every token and keyset, and whatever the primitive answers for
each key, verification succeeds exactly on the policy; everything else that has its arguments
is declined; and an error is for missing arguments only.  An accepted algorithm is never
`none`. -/
theorem jwsVerify_policy (E : Env PKey) (crypto : Crypto PKey) :
    (∀ (t : Token) (J : Jwks PKey) (pool : Pool),
      (jwsVerify E crypto (some t) (some J) (some pool) = .ok ↔ PolicyAccepts E crypto t J) ∧
      (¬ PolicyAccepts E crypto t J →
        jwsVerify E crypto (some t) (some J) (some pool) = .declined) ∧
      (PolicyAccepts E crypto t J → t.alg ≠ ascii "none")) ∧
    (∀ (token : Option Token) (jwks : Option (Jwks PKey)) (pool : Option Pool),
      jwsVerify E crypto token jwks pool = .error ↔
        token = none ∨ jwks = none ∨ pool = none) := by
  constructor
  · intro t J pool
    refine ⟨jwsVerify_ok_iff, ?_, ?_⟩
    · intro hn
      rcases jwsVerify_cases E crypto t J pool with ⟨h, -⟩ | ⟨-, h⟩
      · exact absurd h hn
      · exact h
    · rintro ⟨alg, ha, hn, -⟩
      rw [← hn]
      exact (algs_name_ne _ alg ha).2
  · intro token jwks pool
    exact jwsVerify_error_iff

end NxeJwx
