/-
# Keysets that cannot be told apart

The library reads a key only through its kid, its thumbprint, its derived algorithm and the
trial of a signature.  Two keys that agree on these are `Alike`, and two keysets of pairwise
alike keys give the same answer to every request: token verification, the two raw
verifications, and the two lookups.
-/
import NxeJwx.Policy

namespace NxeJwx

open TryEach

variable {PKey : Type}

/-- Two keys that no request distinguishes, the primitive being `crypto` for the one and
`crypto'` for the other. -/
structure Alike (E : Env PKey) (crypto crypto' : Crypto PKey) (k k' : Key PKey) : Prop where
  kid : k.kid = k'.kid
  thumbprint : k.thumbprint = k'.thumbprint
  verify : ∀ alg msg sig,
    verifyWithKey E crypto k alg msg sig = verifyWithKey E crypto' k' alg msg sig
  derived : algFromKey E k = algFromKey E k'

/-- Two keysets of pairwise alike keys. -/
abbrev AlikeKeysets (E : Env PKey) (crypto crypto' : Crypto PKey) (J J' : Jwks PKey) : Prop :=
  List.Forall₂ (Alike E crypto crypto') J.walk J'.walk

variable {E : Env PKey} {crypto crypto' : Crypto PKey} {J J' : Jwks PKey}

theorem Alike.refl_of {k : Key PKey} (h : ∀ alg msg sig, crypto k alg msg sig =
    crypto' k alg msg sig) : Alike E crypto crypto' k k where
  kid := rfl
  thumbprint := rfl
  verify alg msg sig := by simp only [verifyWithKey, h]
  derived := rfl

/-- A keyset against itself, under primitives that agree on its keys. -/
theorem alikeKeysets_of_crypto (h : ∀ k ∈ J.walk, ∀ alg msg sig, crypto k alg msg sig =
    crypto' k alg msg sig) : AlikeKeysets E crypto crypto' J J :=
  List.forall₂_same.mpr fun k hk => .refl_of (h k hk)

/-! ## 1. Token verification -/

/-- The loops over alike keysets report the same, eligibility being decided by the kid. -/
theorem tryEach_alike (h : AlikeKeysets E crypto crypto' J J') (eligible : Bytes → Bool)
    {attempt attempt' : Key PKey → Trial}
    (ht : ∀ k k', Alike E crypto crypto' k k' → attempt k = attempt' k') (r : Report) :
    tryEach (fun k => eligible k.kid) attempt J.walk r =
      tryEach (fun k => eligible k.kid) attempt' J'.walk r :=
  tryEach_forall₂ (h.imp fun k k' hk => ⟨by rw [hk.kid], fun _ => ht k k' hk⟩) r

theorem passes_alike (h : AlikeKeysets E crypto crypto' J J')
    {attempt attempt' : Key PKey → Trial}
    (ht : ∀ k k', Alike E crypto crypto' k k' → attempt k = attempt' k') (kid : Option Bytes) :
    passes attempt kid J = passes attempt' kid J' := by
  have h2 : ∀ b r, passTwo attempt b J r = passTwo attempt' b J' r := fun b r =>
    tryEach_alike h (fun kid => !(b && decide (kid.length > 0))) ht r
  cases kid with
  | none => simp only [passes, h2]
  | some id =>
    have h1 : passOne attempt id J = passOne attempt' id J' :=
      tryEach_alike h (fun kid => decide (kid.length ≠ 0) && strEq id kid) ht .start
    simp only [passes, h1, h2]

theorem jwsVerify_alike (h : AlikeKeysets E crypto crypto' J J') (token : Option Token)
    (pool : Option Pool) :
    jwsVerify E crypto token (some J) pool = jwsVerify E crypto' token (some J') pool := by
  have hp : ∀ alg msg sig kid,
      passes (fun k => verifyWithKey E crypto k alg msg sig) kid J =
        passes (fun k => verifyWithKey E crypto' k alg msg sig) kid J' :=
    fun alg msg sig kid => passes_alike h (fun k k' hk => hk.verify alg msg sig) kid
  cases token with
  | none => rfl
  | some t =>
    cases pool with
    | none => rfl
    | some p => simp only [jwsVerify, jwsVerifyRun, hp]

/-! ## 2. Raw verification -/

theorem verifyRawWithKey_alike {k k' : Key PKey} (h : Alike E crypto crypto' k k')
    (algStr : Option Bytes) (msg sig : Bytes) :
    verifyRawWithKey E crypto k algStr msg sig = verifyRawWithKey E crypto' k' algStr msg sig := by
  have hr : resolveAlg E k algStr = resolveAlg E k' algStr := by
    simp only [resolveAlg, h.derived]
  simp only [verifyRawWithKey, hr, h.verify]

theorem findByThumbprint_alike (h : AlikeKeysets E crypto crypto' J J') (tp : Option Bytes) :
    Option.Rel (Alike E crypto crypto') (findByThumbprint (some J) tp)
      (findByThumbprint (some J') tp) := by
  cases tp with
  | none => exact .none
  | some tp =>
    simp only [findByThumbprint]
    split
    · exact .none
    · exact find_forall₂ (fun k k' hk => by rw [hk.thumbprint]) h

theorem findByKid_alike (h : AlikeKeysets E crypto crypto' J J') (kid : Option Bytes) :
    Option.Rel (Alike E crypto crypto') (findByKid (some J) kid) (findByKid (some J') kid) := by
  cases kid with
  | none => exact .none
  | some kid =>
    simp only [findByKid]
    split
    · exact .none
    · exact find_forall₂ (fun k k' hk => by rw [hk.kid]) h

theorem jwksVerifyRaw_alike (h : AlikeKeysets E crypto crypto' J J')
    (keyid algStr msg sig : Option Bytes) (pool : Option Pool) :
    jwksVerifyRaw E crypto (some J) keyid algStr msg sig pool =
      jwksVerifyRaw E crypto' (some J') keyid algStr msg sig pool := by
  match keyid, msg, sig, pool with
  | none, _, _, _ => rfl
  | some _, none, _, _ => rfl
  | some _, some _, none, _ => rfl
  | some _, some _, some _, none => rfl
  | some keyid, some msg, some sig, some _ =>
    simp only [jwksVerifyRaw]
    split
    · rfl
    · have hf := findByThumbprint_alike h (some keyid)
      revert hf
      cases findByThumbprint (some J) (some keyid) <;>
        cases findByThumbprint (some J') (some keyid) <;> intro hf
      · rfl
      · cases hf
      · cases hf
      · cases hf with
        | some hk => exact verifyRawWithKey_alike hk algStr msg sig

theorem jwksVerifyRawByKid_alike (h : AlikeKeysets E crypto crypto' J J')
    (kid algStr msg sig : Option Bytes) (pool : Option Pool) :
    jwksVerifyRawByKid E crypto (some J) kid algStr msg sig pool =
      jwksVerifyRawByKid E crypto' (some J') kid algStr msg sig pool := by
  match kid, msg, sig, pool with
  | none, _, _, _ => rfl
  | some _, none, _, _ => rfl
  | some _, some _, none, _ => rfl
  | some _, some _, some _, none => rfl
  | some kid, some msg, some sig, some _ =>
    have htrial : ∀ k k', Alike E crypto crypto' k k' →
        rawTrial E crypto algStr msg sig k = rawTrial E crypto' algStr msg sig k' :=
      fun k k' hk => by simp only [rawTrial, verifyRawWithKey_alike hk]
    simp only [jwksVerifyRawByKid,
      tryEach_alike h (fun id => decide (id.length ≠ 0) && strEq kid id) htrial]

/-! ## 3. Lookups -/

theorem hasKid_alike (h : AlikeKeysets E crypto crypto' J J') (kid : Option Bytes) :
    hasKid (some J) kid = hasKid (some J') kid :=
  isSome_of_rel (findByKid_alike h kid)

theorem hasThumbprint_alike (h : AlikeKeysets E crypto crypto' J J') (tp : Option Bytes) :
    hasThumbprint (some J) tp = hasThumbprint (some J') tp :=
  isSome_of_rel (findByThumbprint_alike h tp)

end NxeJwx
