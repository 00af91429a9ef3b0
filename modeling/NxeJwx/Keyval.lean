/-
# Parsing a keyval document

`nxe_jwx_jwks_parse_keyval`: an object from kid to PEM.  The key type is derived from the
OpenSSL handle, and so is the `crv`, which a PEM does not carry.

Unlike the JWKS loop this one does not zero the slot it writes into, and it writes `crv` only
for EC and OKP keys.  It still leaves no trace, because it touches the slot only once it is
sure to keep it: a skipped member leaves the slot as it was (`keyvalStep_skip`).
-/
import NxeJwx.JwksDocument

namespace NxeJwx

open FillSlots

variable {PKey : Type}

/-! ## 1. The code -/

/-- `nxe_jwx_load_pem_pubkey`, with the fault of its BIO. -/
def loadPemPubkey (E : Env PKey) (fault : Bool) (pem : Bytes) : Option PKey :=
  if fault then none else E.ossl.pemReadPubkey pem

/-- `nxe_jwx_kty_from_pkey`. -/
def ktyFromPkey (O : Ossl PKey) (pkey : PKey) : Kty :=
  match O.baseId pkey with
  | .rsa => .rsa
  | .rsaPss => .rsa
  | .ec => .ec
  | .ed25519 => .okp
  | .ed448 => .okp
  | .other _ => .unknown

/-- The part of the loop body that tells the key types apart: `crv` is written for EC and OKP
keys only.  `none` skips the member. -/
def keyvalCrv (O : Ossl PKey) (pkey : PKey) (k : Key PKey) : Option (Key PKey) :=
  match ktyFromPkey O pkey with
  | .unknown => none
  | .ec =>
    match ecCurveFromPkey O pkey with
    | none => none
    | some curve => some { k with crv := curve.jwkCrv }
  | .okp =>
    match okpCurveFromPkey O pkey with
    | none => none
    | some curve => some { k with crv := curve.jwkCrv }
  | _ => some k

/-- One turn of the loop of `nxe_jwx_jwks_parse_keyval`.  The second component is the position
of the member. -/
def keyvalStep (E : Env PKey) (F : ParseFaults) (entry : (Bytes × Json) × Nat)
    (slot : Key PKey) : Outcome × Key PKey :=
  let f := F.entry entry.2
  let kid := entry.1.1
  if kid.length = 0 then (.skip, slot)
  else
    match entry.1.2.stringOf with
    | none => (.skip, slot)
    | some val =>
      if val.length = 0 then (.skip, slot)
      else
        match loadPemPubkey E (f .bio) val with
        | none => (.skip, slot)
        | some pkey =>
          match keyvalCrv E.ossl pkey slot with
          | none => (.skip, slot)
          | some k =>
            let k := { k with pkey := some pkey, kty := ktyFromPkey E.ossl pkey }
            match dupStrToPool (f .dupKid) kid with
            | none => (.abort, { k with pkey := none })
            | some kid =>
              -- a thumbprint that cannot be computed is left empty, and the key is kept
              (.keep, (jwkThumbprint E (fun s => f (.thumbprint s)) { k with kid := kid }).2)

/-- `nxe_jwx_jwks_parse_keyval`. -/
def keyvalParse (E : Env PKey) (F : ParseFaults) (keyvalJson : Option Bytes)
    (pool : Option Pool) : Option (Jwks PKey) :=
  match pool, keyvalJson with
  | none, _ => none
  | some _, none => none
  | some _, some doc =>
    if doc.length = 0 ∨ doc.length > maxJwksSize then none
    else
      match (if F.root then none else E.json.parseUntrusted doc) with
      | some (.object members) =>
        if members.length = 0 then none
        else if members.length > maxJwksKeys then none
        else
          match jwksAlloc F.alloc members.length with
          | none => none
          | some slots =>
            match fill (fun count => decide (count ≥ maxJwksKeys)) (keyvalStep E F)
                members.zipIdx slots with
            | .done s => if s.count = 0 then none else some ⟨s.cells, s.count⟩
            | _ => none
      | _ => none

/-! ## 2. The key of a member -/

/-- No key of a keyval document is a secret. -/
theorem ktyFromPkey_ne_oct (O : Ossl PKey) (pkey : PKey) : ktyFromPkey O pkey ≠ .oct := by
  unfold ktyFromPkey
  cases O.baseId pkey <;> simp

theorem ktyFromPkey_rsa_iff {O : Ossl PKey} {p : PKey} :
    ktyFromPkey O p = .rsa ↔ O.baseId p = .rsa ∨ O.baseId p = .rsaPss := by
  unfold ktyFromPkey
  cases O.baseId p <;> simp

/-- The `crv` of a supported handle, empty for RSA; `none` when it is not supported. -/
def pkeyCrv (O : Ossl PKey) (pkey : PKey) : Option Bytes :=
  match ktyFromPkey O pkey with
  | .unknown => none
  | .ec => (ecCurveFromPkey O pkey).map EcCurve.jwkCrv
  | .okp => (okpCurveFromPkey O pkey).map OkpCurve.jwkCrv
  | _ => some []

/-- The key of a PEM under the name `kid`, before its thumbprint is computed. -/
def pemKey (O : Ossl PKey) (kid : Bytes) (pkey : PKey) : Key PKey :=
  { (Key.zero : Key PKey) with
    kty := ktyFromPkey O pkey
    kid := kid
    crv := (pkeyCrv O pkey).getD []
    pkey := some pkey }

/-- The member is the PEM of a supported public key under a non-empty name. -/
structure PemMember (E : Env PKey) (member : Bytes × Json) (pkey : PKey) : Prop where
  name : member.1 ≠ []
  pem : ∃ pem, member.2 = .string pem ∧ pem ≠ [] ∧ E.ossl.pemReadPubkey pem = some pkey
  supported : (pkeyCrv E.ossl pkey).isSome = true

section Member

variable {E : Env PKey} {F : ParseFaults}

/-- A skipped member leaves the slot as it was. -/
theorem keyvalStep_skip {entry : (Bytes × Json) × Nat} {slot : Key PKey}
    (h : (keyvalStep E F entry slot).1 = .skip) : (keyvalStep E F entry slot).2 = slot := by
  unfold keyvalStep at h ⊢
  simp only at h ⊢
  split
  · rfl
  next hkid =>
  rw [if_neg hkid] at h
  split
  · rfl
  next val hval =>
  rw [hval] at h
  simp only at h
  split
  · rfl
  next hlen =>
  rw [if_neg hlen] at h
  split
  · rfl
  next pkey hpkey =>
  rw [hpkey] at h
  simp only at h
  split
  · rfl
  next k hk =>
  rw [hk] at h
  simp only at h
  split at h
  · exact Outcome.noConfusion h
  · exact Outcome.noConfusion h

/-- On a zeroed slot the derived `crv` is the one of the handle. -/
theorem keyvalCrv_zero {O : Ossl PKey} {pkey : PKey} :
    keyvalCrv O pkey .zero = (pkeyCrv O pkey).map fun crv => { Key.zero with crv := crv } := by
  unfold keyvalCrv pkeyCrv
  cases ktyFromPkey O pkey with
  | unknown => rfl
  | rsa => rfl
  | ec => cases ecCurveFromPkey O pkey <;> rfl
  | okp => cases okpCurveFromPkey O pkey <;> rfl
  | oct => rfl

/-- What a member decides: its result in a zeroed slot. -/
def keyvalOut (E : Env PKey) (F : ParseFaults) (entry : (Bytes × Json) × Nat) : Outcome :=
  (keyvalStep E F entry .zero).1

/-- What a member leaves in a zeroed slot. -/
def keyvalVal (E : Env PKey) (F : ParseFaults) (entry : (Bytes × Json) × Nat) : Key PKey :=
  (keyvalStep E F entry .zero).2

theorem keyvalStep_regular (E : Env PKey) (F : ParseFaults) :
    Regular (fun k => k = .zero) (keyvalStep E F) (keyvalOut E F) (keyvalVal E F) where
  outcome i k hk := by rw [hk]; rfl
  kept i k hk _ := by rw [hk]; rfl
  skipped i k hk h := by
    subst hk
    exact keyvalStep_skip h

/-- Only the copy of the kid can abort the document, and only by a fault. -/
theorem keyvalOut_abort {entry : (Bytes × Json) × Nat} (h : keyvalOut E F entry = .abort) :
    F.entry entry.2 .dupKid = true := by
  unfold keyvalOut keyvalStep at h
  simp only at h
  split at h
  · exact Outcome.noConfusion h
  split at h
  · exact Outcome.noConfusion h
  split at h
  · exact Outcome.noConfusion h
  split at h
  · exact Outcome.noConfusion h
  split at h
  · exact Outcome.noConfusion h
  split at h
  case h_2 => exact Outcome.noConfusion h
  next hdup =>
  unfold dupStrToPool at hdup
  split at hdup
  · exact absurd hdup (by simp)
  split at hdup
  · next hf => exact hf
  · exact absurd hdup (by simp)

/-- Whatever steps fail, a kept member is the PEM of a supported public key under a non-empty
name, and gives its key. -/
theorem keyvalOut_keep {entry : (Bytes × Json) × Nat} (h : keyvalOut E F entry = .keep) :
    ∃ pkey, PemMember E entry.1 pkey ∧
      keyvalVal E F entry = (jwkThumbprint E (fun s => F.entry entry.2 (.thumbprint s))
        (pemKey E.ossl entry.1.1 pkey)).2 := by
  unfold keyvalOut keyvalStep at h
  unfold keyvalVal keyvalStep
  simp only at h ⊢
  split at h
  · exact Outcome.noConfusion h
  next hkid =>
  split at h
  · exact Outcome.noConfusion h
  next val hval =>
  split at h
  · exact Outcome.noConfusion h
  next hlen =>
  split at h
  · exact Outcome.noConfusion h
  next pkey hpkey =>
  rw [keyvalCrv_zero] at h
  split at h
  · exact Outcome.noConfusion h
  next k hk =>
  split at h
  · exact Outcome.noConfusion h
  next kid hdup =>
  obtain ⟨crv, hcrv, rfl⟩ := Option.map_eq_some_iff.mp hk
  have hread : E.ossl.pemReadPubkey val = some pkey := by
    unfold loadPemPubkey at hpkey
    split at hpkey
    · exact absurd hpkey (by simp)
    · exact hpkey
  have hstr : entry.1.2 = .string val := by
    revert hval
    cases entry.1.2 <;> simp [Json.stringOf]
  refine ⟨pkey, ⟨fun e => hkid (List.length_eq_zero_iff.mpr e), ⟨val, hstr,
    fun e => hlen (List.length_eq_zero_iff.mpr e), hread⟩, by rw [hcrv]; rfl⟩, ?_⟩
  obtain rfl := dupStrToPool_eq_some hdup
  simp only [if_neg hkid, if_neg hlen, keyvalCrv_zero, hcrv, Option.map_some, pemKey,
    Option.getD_some]

/-- When no step fails, the PEM of a supported public key under a non-empty name is kept. -/
theorem keyvalOut_of_pemMember {member : Bytes × Json} {pkey : PKey}
    (h : PemMember E member pkey) (i : Nat) :
    keyvalOut E noParseFaults (member, i) = .keep ∧
      keyvalVal E noParseFaults (member, i) =
        (jwkThumbprint E noThumbprintFaults (pemKey E.ossl member.1 pkey)).2 := by
  obtain ⟨pem, hval, hne, hread⟩ := h.pem
  obtain ⟨crv, hcrv⟩ := Option.isSome_iff_exists.mp h.supported
  have hkid : member.1.length ≠ 0 := fun e => h.name (List.length_eq_zero_iff.mp e)
  have hlen : pem.length ≠ 0 := fun e => hne (List.length_eq_zero_iff.mp e)
  have hno : ∀ s, noParseFaults.entry i s = false := fun _ => rfl
  unfold keyvalOut keyvalVal keyvalStep
  simp only [if_neg hkid, hval, Json.stringOf, if_neg hlen, loadPemPubkey, hno,
    Bool.false_eq_true, if_false, hread, keyvalCrv_zero, hcrv, Option.map_some, dupStrToPool,
    pemKey, Option.getD_some, true_and]
  rfl

end Member

/-! ## 3. The document -/

/-- `members` is the object of a document that `nxe_jwx_jwks_parse_keyval` looks into. -/
structure KeyvalMembers (E : Env PKey) (doc : Bytes) (members : List (Bytes × Json)) : Prop where
  size : doc.length ≠ 0 ∧ doc.length ≤ maxJwksSize
  parse : E.json.parseUntrusted doc = some (.object members)
  count : members.length ≤ maxJwksKeys

section Document

variable {E : Env PKey} {F : ParseFaults} {doc : Bytes} {members : List (Bytes × Json)}
  {pool : Pool} {J : Jwks PKey}

theorem KeyvalMembers.unique {members' : List (Bytes × Json)} (h : KeyvalMembers E doc members)
    (h' : KeyvalMembers E doc members') : members = members' :=
  Json.object.inj (Option.some.inj (h.parse.symm.trans h'.parse))

/-- The early exit of the loop is never taken before the last slot is used. -/
theorem not_full {n m : Nat} (h : n ≤ maxJwksKeys) (hm : m < n) :
    decide (m ≥ maxJwksKeys) = false := by
  rw [decide_eq_false_iff_not]
  omega

/-- A keyset that comes out of a document is that of a run of the loop over its members. -/
theorem keyvalParse_run (h : keyvalParse E F (some doc) (some pool) = some J) :
    ∃ members, KeyvalMembers E doc members ∧ members ≠ [] ∧ F.root = false ∧ F.alloc = false ∧
      keysetOfRun (fill (fun count => decide (count ≥ maxJwksKeys)) (keyvalStep E F)
        members.zipIdx (.blank members.length .zero)) = some J := by
  simp only [keyvalParse] at h
  split at h
  · exact absurd h (by simp)
  next hsize =>
  split at h
  case h_2 => exact absurd h (by simp)
  next members hroot =>
  split at h
  · exact absurd h (by simp)
  next hne =>
  split at h
  · exact absurd h (by simp)
  next hcount =>
  split at h
  · exact absurd h (by simp)
  next slots halloc =>
  obtain ⟨hfroot, hparse⟩ := Option.ite_none_left_eq_some.mp hroot
  obtain ⟨hfalloc, hslots⟩ := Option.ite_none_left_eq_some.mp halloc
  obtain rfl := Option.some.inj hslots
  exact ⟨members, ⟨by omega, hparse, Nat.le_of_not_lt hcount⟩,
    fun hnil => hne (List.length_eq_zero_iff.mpr hnil), Bool.eq_false_iff.mpr hfroot,
    Bool.eq_false_iff.mpr hfalloc, h⟩

/-- There is a slot for every member. -/
theorem zipIdx_le_length (members : List (Bytes × Json)) :
    members.zipIdx.length ≤ members.length := by
  rw [List.length_zipIdx]

/-- A keyset that comes out of a document is what its members give, in order. -/
theorem keyvalParse_some (h : keyvalParse E F (some doc) (some pool) = some J) :
    ∃ members, KeyvalMembers E doc members ∧
      J.walk = keptOf (keyvalOut E F) (keyvalVal E F) members.zipIdx ∧ J.walk ≠ [] := by
  obtain ⟨members, hd, -, -, -, hrun⟩ := keyvalParse_run h
  obtain ⟨hwalk, hne, -⟩ := keysetOfRun_some _ (keyvalStep_regular E F) rfl
    (zipIdx_le_length members) (fun m hm => not_full hd.count hm) hrun
  exact ⟨members, hd, hwalk, hne⟩

/-- On an admissible document that is not empty, parser and allocator not failing, parsing is a
run of the loop. -/
theorem keyvalParse_eq_run (hroot : F.root = false) (halloc : F.alloc = false)
    (hd : KeyvalMembers E doc members) (hne : members ≠ []) :
    keyvalParse E F (some doc) (some pool) =
      keysetOfRun (fill (fun count => decide (count ≥ maxJwksKeys)) (keyvalStep E F)
        members.zipIdx (.blank members.length .zero)) := by
  have hsize : ¬ (doc.length = 0 ∨ doc.length > maxJwksSize) := by
    have := hd.size
    omega
  have hlen : members.length ≠ 0 := fun h => hne (List.length_eq_zero_iff.mp h)
  simp only [keyvalParse, if_neg hsize, hroot, Bool.false_eq_true, if_false, hd.parse,
    if_neg hlen, if_neg (Nat.not_lt.mpr hd.count), jwksAlloc, halloc]
  rfl

/-- So it gives the keys of the members that are kept. -/
theorem keyvalParse_gather (hroot : F.root = false) (halloc : F.alloc = false)
    (hd : KeyvalMembers E doc members) (hne : members ≠ []) :
    (keyvalParse E F (some doc) (some pool)).map Jwks.walk =
      gather (members.zipIdx.map fun i => (keyvalOut E F i, keyvalVal E F i)) := by
  rw [keyvalParse_eq_run hroot halloc hd hne]
  exact keysetOfRun_gather _ (keyvalStep_regular E F) rfl (zipIdx_le_length members)
    fun m hm => not_full hd.count hm

/-- `k` is the key of a member, whose PEM loads as `pkey`. -/
structure PemOrigin (E : Env PKey) (member : Bytes × Json) (pkey : PKey) (k : Key PKey) :
    Prop where
  usable : PemMember E member pkey
  key : k = { pemKey E.ossl member.1 pkey with thumbprint := k.thumbprint }
  thumbprint : Thumbprinted E k

namespace PemOrigin

variable {member : Bytes × Json} {pkey : PKey} {k : Key PKey}

theorem kty (h : PemOrigin E member pkey k) : k.kty = ktyFromPkey E.ossl pkey := by
  rw [h.key]; rfl

theorem kid (h : PemOrigin E member pkey k) : k.kid = member.1 := by rw [h.key]; rfl

theorem alg (h : PemOrigin E member pkey k) : k.alg = [] := by rw [h.key]; rfl

theorem crv (h : PemOrigin E member pkey k) : k.crv = (pkeyCrv E.ossl pkey).getD [] := by
  rw [h.key]; rfl

theorem handle (h : PemOrigin E member pkey k) : k.pkey = some pkey := by rw [h.key]; rfl

theorem hmacSecret (h : PemOrigin E member pkey k) : k.hmacSecret = [] := by rw [h.key]; rfl

end PemOrigin

/-- Every key of the keyset is the key of a supported PEM under a non-empty name. -/
theorem mem_of_keyvalParse (h : keyvalParse E F (some doc) (some pool) = some J) {k : Key PKey}
    (hk : k ∈ J.walk) :
    ∃ members member pkey, KeyvalMembers E doc members ∧ member ∈ members ∧
      PemOrigin E member pkey k := by
  obtain ⟨members, hd, hwalk, -⟩ := keyvalParse_some h
  rw [hwalk] at hk
  obtain ⟨⟨member, i⟩, hi, ho, rfl⟩ := mem_keptOf.mp hk
  obtain ⟨pkey, hp, hval⟩ := keyvalOut_keep ho
  obtain ⟨tp, heq, htp⟩ := jwkThumbprint_eq E (fun s => F.entry i (.thumbprint s))
    (pemKey E.ossl member.1 pkey)
  rw [hval, heq]
  exact ⟨members, member, pkey, hd, mem_of_mem_zipIdx hi, hp, rfl, htp⟩

/-- When no step fails, every supported PEM under a non-empty name has its key in the
keyset. -/
theorem pemKey_mem_of_keyvalParse (pool : Pool) (hd : KeyvalMembers E doc members)
    {member : Bytes × Json} (hm : member ∈ members) {pkey : PKey} (hp : PemMember E member pkey) :
    ∃ J, keyvalParse E noParseFaults (some doc) (some pool) = some J ∧
      (jwkThumbprint E noThumbprintFaults (pemKey E.ossl member.1 pkey)).2 ∈ J.walk := by
  obtain ⟨i, hi⟩ := exists_mem_zipIdx hm
  have hkey := keyvalOut_of_pemMember hp i
  cases hJ : keyvalParse E noParseFaults (some doc) (some pool) with
  | some J =>
    obtain ⟨members', hd', hwalk, -⟩ := keyvalParse_some hJ
    obtain rfl := hd.unique hd'
    exact ⟨J, rfl, hwalk ▸ mem_keptOf.mpr ⟨(member, i), hi, hkey⟩⟩
  | none =>
    have hg : (keyvalParse E noParseFaults (some doc) (some pool)).map Jwks.walk = _ :=
      keyvalParse_gather rfl rfl hd (List.ne_nil_of_mem hm)
    rw [hJ, Option.map_none, eq_comm, gather_eq_none_iff] at hg
    rcases hg with ⟨r, hr, ha⟩ | hno
    · obtain ⟨j, -, rfl⟩ := List.mem_map.mp hr
      exact absurd (keyvalOut_abort ha) (by simp [noParseFaults, noEntryFaults])
    · exact absurd hkey.1 (hno _ (List.mem_map_of_mem hi))

theorem pemMember_mem_of_keyvalParse (pool : Pool) (hd : KeyvalMembers E doc members)
    {member : Bytes × Json} (hm : member ∈ members) {pkey : PKey} (hp : PemMember E member pkey) :
    ∃ J, keyvalParse E noParseFaults (some doc) (some pool) = some J ∧
      ∃ k ∈ J.walk, PemOrigin E member pkey k := by
  obtain ⟨J, hJ, hmem⟩ := pemKey_mem_of_keyvalParse pool hd hm hp
  obtain ⟨tp, heq, htp⟩ := jwkThumbprint_eq E noThumbprintFaults (pemKey E.ossl member.1 pkey)
  rw [heq] at hmem
  exact ⟨J, hJ, _, hmem, hp, rfl, htp⟩

end Document

end NxeJwx
