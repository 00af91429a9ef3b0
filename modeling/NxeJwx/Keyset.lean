/-
# Keys and keysets

`struct nxe_jwx_key_s` (`nxe_jwx_internal.h`), `struct nxe_jwx_jwks_s`, and the accessors and
lookups at the end of `nxe_jwx_jwks.c`.

A keyset is an array of key slots with a counter; only the slots below the counter are keys.
Every loop over a keyset asks `nxe_jwx_jwks_key_at` for each index below the counter and
passes over `NULL`, which is `Jwks.walk`.
-/
import NxeJwx.Tables

namespace NxeJwx

/-- `nxe_jwx_kty_t`.  `oct` is there in builds with `NXE_JWX_HAVE_HMAC` only. -/
inductive Kty where
  | unknown
  | rsa
  | ec
  | okp
  | oct
  deriving DecidableEq, Repr

/-- `struct nxe_jwx_key_s`. -/
structure Key (PKey : Type) where
  kty : Kty
  kid : Bytes
  alg : Bytes
  crv : Bytes
  thumbprint : Bytes
  pkey : Option PKey
  hmacSecret : Bytes
  deriving DecidableEq, Repr

/-- A zeroed slot. -/
def Key.zero {PKey : Type} : Key PKey := ⟨.unknown, [], [], [], [], none, []⟩

/-- `struct nxe_jwx_jwks_s`. -/
structure Jwks (PKey : Type) where
  keys : List (Key PKey)
  nkeys : Nat
  deriving DecidableEq, Repr

variable {PKey : Type}

namespace Jwks

/-- `nxe_jwx_jwks_count` and `nxe_jwx_jwks_size_internal`. -/
def count (J : Option (Jwks PKey)) : Nat :=
  match J with
  | none => 0
  | some J => J.nkeys

/-- `nxe_jwx_jwks_key_at` on a keyset that is there. -/
def keyAt (J : Jwks PKey) (i : Nat) : Option (Key PKey) :=
  if i ≥ J.nkeys then none else J.keys[i]?

/-- The keys a loop over the keyset visits, in order. -/
def walk (J : Jwks PKey) : List (Key PKey) := (List.range J.nkeys).filterMap J.keyAt

/-- The loops visit the counted slots. -/
theorem walk_eq_take (J : Jwks PKey) : J.walk = J.keys.take J.nkeys := by
  have h : ∀ n, n ≤ J.nkeys → (List.range n).filterMap J.keyAt = J.keys.take n := by
    intro n
    induction n with
    | zero => intro _; rfl
    | succ n ih =>
      intro hn
      have hat : J.keyAt n = J.keys[n]? := by unfold keyAt; rw [if_neg (by omega)]
      rw [List.range_succ, List.filterMap_append, ih (by omega), List.take_add_one,
        List.filterMap_cons, hat]
      cases J.keys[n]? <;> rfl
  exact h _ (Nat.le_refl _)

/-- Key number `i` is the `i`-th that the loops visit. -/
theorem keyAt_eq_walk (J : Jwks PKey) (i : Nat) : J.keyAt i = J.walk[i]? := by
  rw [walk_eq_take, List.getElem?_take, keyAt]
  by_cases h : i < J.nkeys
  · rw [if_pos h, if_neg (Nat.not_le.mpr h)]
  · rw [if_neg h, if_pos (Nat.not_lt.mp h)]

/-- The keyset with just the given keys. -/
def ofList (l : List (Key PKey)) : Jwks PKey := ⟨l, l.length⟩

@[simp] theorem walk_ofList (l : List (Key PKey)) : (ofList l).walk = l := by
  rw [walk_eq_take]
  exact List.take_length

end Jwks

/-! ## Lookups -/

/-- `nxe_jwx_jwks_find_by_kid`. -/
def findByKid (J : Option (Jwks PKey)) (kid : Option Bytes) : Option (Key PKey) :=
  match J, kid with
  | some J, some kid =>
    if kid.length = 0 then none
    else J.walk.find? fun k => decide (k.kid.length > 0) && strEq k.kid kid
  | _, _ => none

/-- `nxe_jwx_jwks_find_by_thumbprint`. -/
def findByThumbprint (J : Option (Jwks PKey)) (thumbprint : Option Bytes) :
    Option (Key PKey) :=
  match J, thumbprint with
  | some J, some thumbprint =>
    if thumbprint.length = 0 then none
    else J.walk.find? fun k => decide (k.thumbprint.length > 0) && strEq k.thumbprint thumbprint
  | _, _ => none

/-- `nxe_jwx_jwks_has_kid`. -/
def hasKid (J : Option (Jwks PKey)) (kid : Option Bytes) : Bool := (findByKid J kid).isSome

/-- `nxe_jwx_jwks_has_thumbprint`. -/
def hasThumbprint (J : Option (Jwks PKey)) (thumbprint : Option Bytes) : Bool :=
  (findByThumbprint J thumbprint).isSome

/-- The test of a lookup for something that is not empty. -/
theorem lookup_test {s v : Bytes} (h : s ≠ []) :
    (decide (v.length > 0) && strEq v s) = (v == s) := by
  by_cases hv : v = s
  · have hpos : v.length > 0 := List.length_pos_iff.mpr (hv ▸ h)
    rw [decide_eq_true hpos, strEq_iff.mpr hv, beq_iff_eq.mpr hv]
    rfl
  · have hne : strEq v s = false := Bool.eq_false_iff.mpr fun hs => hv (strEq_iff.mp hs)
    rw [hne, Bool.and_false, beq_false_of_ne hv]

/-- A thumbprint lookup is the first key with that thumbprint, an empty one finding
nothing. -/
theorem findByThumbprint_eq {J : Jwks PKey} {tp : Bytes} (h : tp ≠ []) :
    findByThumbprint (some J) (some tp) = J.walk.find? fun k => k.thumbprint == tp := by
  have hlen : tp.length ≠ 0 := fun h0 => h (List.length_eq_zero_iff.mp h0)
  simp only [findByThumbprint, if_neg hlen, lookup_test h]

/-- What a thumbprint lookup finds is a key of the keyset with that thumbprint. -/
theorem findByThumbprint_some {J : Jwks PKey} {tp : Bytes} {k : Key PKey}
    (h : findByThumbprint (some J) (some tp) = some k) :
    k ∈ J.walk ∧ k.thumbprint = tp ∧ tp ≠ [] := by
  have hne : tp ≠ [] := by
    rintro rfl
    exact absurd h (by simp [findByThumbprint])
  rw [findByThumbprint_eq hne] at h
  exact ⟨List.mem_of_find?_eq_some h, by simpa using List.find?_some h, hne⟩

/-- A kid lookup is the first key with that kid, an empty one finding nothing. -/
theorem findByKid_eq {J : Jwks PKey} {kid : Bytes} (h : kid ≠ []) :
    findByKid (some J) (some kid) = J.walk.find? fun k => k.kid == kid := by
  have hlen : kid.length ≠ 0 := fun h0 => h (List.length_eq_zero_iff.mp h0)
  simp only [findByKid, if_neg hlen, lookup_test h]

/-- A keyset has the kids its keys carry, the empty one apart. -/
theorem hasKid_iff {J : Jwks PKey} {kid : Bytes} :
    hasKid (some J) (some kid) = true ↔ kid ≠ [] ∧ ∃ k ∈ J.walk, k.kid = kid := by
  by_cases h : kid = []
  · subst h
    simp [hasKid, findByKid]
  · simp [hasKid, findByKid_eq h, h]

/-- A keyset has the thumbprints its keys carry, the empty one apart. -/
theorem hasThumbprint_iff {J : Jwks PKey} {tp : Bytes} :
    hasThumbprint (some J) (some tp) = true ↔ tp ≠ [] ∧ ∃ k ∈ J.walk, k.thumbprint = tp := by
  by_cases h : tp = []
  · subst h
    simp [hasThumbprint, findByThumbprint]
  · simp [hasThumbprint, findByThumbprint_eq h, h]

end NxeJwx
