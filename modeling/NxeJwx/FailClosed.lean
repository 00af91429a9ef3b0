/-
# Steps that fail take away, and never give

Every call can fail in the middle for want of memory.  This module says what that does to the
answers, for all calls together (`faults_fail_closed`).

* A token or an issued token that comes out of a call is the one that comes out when nothing fails.
* A JWKS either fails to parse, or it gives the keys that it gives when nothing fails; only a
  thumbprint may be missing.  So tokens and kids are judged as before.  Only a verification by
  thumbprint can miss its key: it finds none, or the next one with that thumbprint.
* A keyval document may lose keys.  It gives every key a kid, so a token whose key is lost does not
  fall back to the keys without a kid, and no token is accepted that is not accepted otherwise.
-/
import NxeJwx.ParseObjects
import NxeJwx.VerifyObjects
import NxeJwx.IssueObjects
import NxeJwx.HardErrors
import NxeJwx.IssueVerify

namespace NxeJwx

open FillSlots

variable {PKey : Type} {E : Env PKey}

/-! ## 1. Thumbprints -/

/-- `k'` is `k`, or `k` without its thumbprint. -/
def Fades (k k' : Key PKey) : Prop := k' = k ∨ k' = { k with thumbprint := [] }

theorem encodeB64url_noFault {fault : Bool} {src t : Bytes}
    (h : encodeB64url E fault src = some t) : encodeB64url E false src = some t := by
  rw [encodeB64url_eq_some h]
  rfl

theorem bnToB64url_noFault {fault : Bool} {bn padLen : Nat} {t : Bytes}
    (h : bnToB64url E fault bn padLen = some t) : bnToB64url E false bn padLen = some t := by
  cases fault with
  | false => exact h
  | true =>
    rw [bnToB64url_fault] at h
    exact absurd h (by simp)

/-- A text that is put together is the text that is put together when nothing fails. -/
theorem thumbprintText_noFault {f : ThumbprintFaults} {k : Key PKey} {json : Bytes}
    (h : thumbprintText E f k = .ok json) : thumbprintText E noThumbprintFaults k = .ok json := by
  unfold thumbprintText at h ⊢
  cases hkty : k.kty with
  | unknown =>
    rw [hkty] at h
    exact h
  | rsa =>
    simp only [hkty, Ret.ofOption_eq_ok, thumbprintRsa, Option.bind_eq_bind,
      Option.bind_eq_some_iff, Option.pure_def, Option.ite_none_left_eq_some] at h ⊢
    obtain ⟨p, hp, n, hn, e, he, nB64, hnB64, eB64, heB64, -, hjson⟩ := h
    exact ⟨p, hp, n, hn, e, he, nB64, bnToB64url_noFault hnB64, eB64, bnToB64url_noFault heB64,
      Bool.noConfusion, hjson⟩
  | ec =>
    simp only [hkty, Ret.ofOption_eq_ok, thumbprintEc, Option.bind_eq_bind,
      Option.bind_eq_some_iff, Option.pure_def, Option.ite_none_left_eq_some] at h ⊢
    obtain ⟨p, hp, hbits, x, hx, y, hy, xB64, hxB64, yB64, hyB64, -, hjson⟩ := h
    exact ⟨p, hp, hbits, x, hx, y, hy, xB64, bnToB64url_noFault hxB64, yB64,
      bnToB64url_noFault hyB64, Bool.noConfusion, hjson⟩
  | okp =>
    simp only [hkty, Ret.ofOption_eq_ok, thumbprintOkp, Option.bind_eq_bind,
      Option.bind_eq_some_iff, Option.pure_def, Option.ite_none_left_eq_some] at h ⊢
    obtain ⟨p, hp, raw, hraw, xB64, hxB64, -, hjson⟩ := h
    exact ⟨p, hp, raw, hraw, xB64, encodeB64url_noFault hxB64, Bool.noConfusion, hjson⟩
  | oct =>
    simp only [hkty] at h ⊢
    split at h
    next hhmac =>
      rw [if_pos hhmac]
      simp only [Ret.ofOption_eq_ok, thumbprintOct, Option.bind_eq_bind,
        Option.bind_eq_some_iff, Option.pure_def, Option.ite_none_left_eq_some] at h ⊢
      obtain ⟨kB64, hkB64, -, hjson⟩ := h
      exact ⟨kB64, encodeB64url_noFault hkB64, Bool.noConfusion, hjson⟩
    · exact absurd h (by simp)

/-- Steps of a thumbprint that fail leave it out, or do nothing. -/
theorem fades_jwkThumbprint (f : ThumbprintFaults) (k : Key PKey) :
    Fades (jwkThumbprint E noThumbprintFaults k).2 (jwkThumbprint E f k).2 := by
  have hblank : { (jwkThumbprint E noThumbprintFaults k).2 with thumbprint := [] } =
      { k with thumbprint := [] } := by
    obtain ⟨tp, heq, -⟩ := jwkThumbprint_eq E noThumbprintFaults k
    rw [heq]
  unfold Fades
  rw [hblank]
  unfold jwkThumbprint
  dsimp only
  cases htext : thumbprintText E f { k with thumbprint := [] } with
  | declined | error => exact .inr rfl
  | ok json =>
    rw [thumbprintText_noFault htext]
    dsimp only
    by_cases hmd : (!E.ossl.digestByName .sha256) = true
    · rw [if_pos hmd]
      exact .inr rfl
    rw [if_neg hmd, if_neg hmd]
    by_cases hdigest : f .digest = true
    · rw [if_pos hdigest]
      exact .inr rfl
    rw [if_neg hdigest, if_neg (show ¬ noThumbprintFaults .digest = true from Bool.noConfusion)]
    cases E.ossl.digest .sha256 json with
    | none => exact .inr rfl
    | some digest =>
      dsimp only
      cases hout : encodeB64url E (f .out) digest with
      | none => exact .inr rfl
      | some thumbprint =>
        rw [show encodeB64url E (noThumbprintFaults .out) digest = some thumbprint from
          encodeB64url_noFault hout]
        exact .inl rfl

/-! ## 2. Documents -/

section Documents

variable {F : ParseFaults} {doc : Option Bytes} {pool : Option Pool} {J' : Jwks PKey}

/-- An entry aborts the document only as an object whose parse is an error. -/
theorem jwksOut_abort_iff {entry : Json × Nat} : jwksOut E F entry = .abort ↔
    entry.1.isObject = true ∧ (parseOneKey E (F.entry entry.2) .zero entry.1).1 = .error := by
  refine ⟨fun h => ?_, fun h => jwksOut_abort h.1 h.2⟩
  unfold jwksOut jwksStep at h
  split at h
  · exact Outcome.noConfusion h
  next hobj =>
    refine ⟨by simpa using hobj, ?_⟩
    cases hp : parseOneKey E (F.entry entry.2) .zero entry.1 with
    | mk rc k =>
      rw [hp] at h
      cases rc with
      | ok | declined => exact Outcome.noConfusion h
      | error => rfl

/-- An entry that does not abort a document decides what it decides when nothing fails. -/
theorem jwksOut_noFault {entry : Json × Nat} (h : jwksOut E F entry ≠ .abort) :
    jwksOut E noParseFaults entry = jwksOut E F entry := by
  have hpin : ∀ m, Usable E entry.1 m → jwksOut E F entry = .keep := by
    intro m hm
    rcases parseOneKey_of_usable hm Key.zero (f := F.entry entry.2) with ⟨-, herr⟩ | hok
    · exact absurd (jwksOut_abort (isObject_of_stringAt hm.describes.kty_eq) herr) h
    · exact (jwksOut_keep_iff.mpr hok).1
  cases ho : jwksOut E noParseFaults entry with
  | keep =>
    obtain ⟨m, hm, -⟩ := parseOneKey_ok (jwksOut_keep_iff.mp ⟨ho, rfl⟩)
    exact (hpin m hm).symm
  | abort =>
    -- what is an error without faults is one with them
    obtain ⟨hobj, herr⟩ := jwksOut_abort_iff.mp ho
    obtain ⟨hsigning, habort⟩ := parsedAlone_error_iff.mp herr
    exact absurd (jwksOut_abort hobj (parseOneKey_of_aborts hsigning habort _ _)) h
  | skip =>
    cases ho' : jwksOut E F entry with
    | abort => exact absurd ho' h
    | skip => rfl
    | keep =>
      obtain ⟨m, hm, -⟩ := parseOneKey_ok (jwksOut_keep_iff.mp ⟨ho', rfl⟩)
      have hkeep := (@jwksOut_keep_iff _ E noParseFaults entry _).mpr
        (parseOneKey_noFaults hm Key.zero)
      exact absurd (ho.symm.trans hkeep.1) (by decide)

/-- Its key is the one that it has when nothing fails, or that key without a thumbprint. -/
theorem jwksVal_fades {entry : Json × Nat} (h : jwksOut E F entry = .keep) :
    Fades (jwksVal E noParseFaults entry) (jwksVal E F entry) := by
  obtain ⟨m, hm, hval⟩ := parseOneKey_ok (jwksOut_keep_iff.mp ⟨h, rfl⟩)
  have hkeep := parseOneKey_noFaults hm Key.zero
  have hval' := ((@jwksOut_keep_iff _ E noParseFaults entry _).mpr hkeep).2
  rw [hval, hval']
  exact fades_jwkThumbprint ..

/-- A JWKS that parses gives the keys that it gives when nothing fails, but for thumbprints. -/
theorem jwksParse_noFault (h : jwksParse E F doc pool = some J') :
    ∃ J, jwksParse E noParseFaults doc pool = some J ∧ List.Forall₂ Fades J.walk J'.walk := by
  match pool, doc with
  | none, _ => exact absurd h (by simp [jwksParse])
  | some _, none => exact absurd h (by simp [jwksParse])
  | some pool, some doc =>
    obtain ⟨entries, hd, hwalk', hne, hab⟩ := jwksParse_some h
    have hkept : List.Forall₂ Fades
        (keptOf (jwksOut E noParseFaults) (jwksVal E noParseFaults) entries.zipIdx) J'.walk := by
      rw [hwalk']
      refine forall₂_keptOf (fun i hi => jwksOut_noFault (hab i hi)) fun i hi ho => ?_
      exact jwksVal_fades ((jwksOut_noFault (hab i hi)).symm.trans ho)
    obtain ⟨J, hJ, hwalk⟩ := keysetOfRun_of_kept (fun _ => false)
      (jwksStep_regular E noParseFaults) trivial (zipIdx_le_capacity entries) (fun _ _ => rfl)
      (fun i hi => jwksOut_noFault (hab i hi) ▸ hab i hi) fun hnil => hne <| by
        rw [hnil] at hkept
        exact List.forall₂_nil_left_iff.mp hkept
    refine ⟨J, (jwksParse_eq_run rfl rfl hd).trans hJ, ?_⟩
    rw [hwalk]
    exact hkept

/-- A member that is kept is kept when nothing fails, with the same key but for its thumbprint. -/
theorem keyvalOut_noFault {entry : (Bytes × Json) × Nat} (h : keyvalOut E F entry = .keep) :
    keyvalOut E noParseFaults entry = .keep ∧
      Fades (keyvalVal E noParseFaults entry) (keyvalVal E F entry) := by
  obtain ⟨pkey, hm, hval⟩ := keyvalOut_keep h
  obtain ⟨hkeep, hval'⟩ := keyvalOut_of_pemMember hm entry.2
  refine ⟨hkeep, ?_⟩
  rw [hval, show keyvalVal E noParseFaults entry = _ from hval']
  exact fades_jwkThumbprint ..

/-- A keyval document that parses gives some of the keys that it gives when nothing fails. -/
theorem keyvalParse_noFault (h : keyvalParse E F doc pool = some J') :
    ∃ J, keyvalParse E noParseFaults doc pool = some J ∧
      List.SublistForall₂ (fun k' k => Fades k k') J'.walk J.walk ∧
      ∀ k ∈ J.walk, k.kid ≠ [] := by
  match pool, doc with
  | none, _ => exact absurd h (by simp [keyvalParse])
  | some _, none => exact absurd h (by simp [keyvalParse])
  | some pool, some doc =>
    obtain ⟨members, hd, hwalk', hne⟩ := keyvalParse_some h
    have hkept : List.SublistForall₂ (fun k' k => Fades k k') J'.walk
        (keptOf (keyvalOut E noParseFaults) (keyvalVal E noParseFaults) members.zipIdx) := by
      rw [hwalk']
      exact sublistForall₂_keptOf fun i _ ho => keyvalOut_noFault ho
    have hmembers : members ≠ [] := by
      rintro rfl
      exact hne hwalk'
    obtain ⟨J, hJ, hwalk⟩ := keysetOfRun_of_kept (fun count => decide (count ≥ maxJwksKeys))
      (keyvalStep_regular E noParseFaults) rfl (zipIdx_le_length members)
      (fun m hm => not_full hd.count hm)
      (fun i _ ha => absurd (keyvalOut_abort ha) (by simp [noParseFaults, noEntryFaults]))
      fun hnil => hne <| by
        rw [hnil] at hkept
        obtain ⟨l, hl, hsub⟩ := List.sublistForall₂_iff.mp hkept
        rw [List.sublist_nil.mp hsub] at hl
        exact List.forall₂_nil_right_iff.mp hl
    have hparse : keyvalParse E noParseFaults (some doc) (some pool) = some J :=
      (keyvalParse_eq_run rfl rfl hd hmembers).trans hJ
    refine ⟨J, hparse, by rw [hwalk]; exact hkept, fun k hk => ?_⟩
    obtain ⟨-, member, pkey, -, -, horigin⟩ := mem_of_keyvalParse hparse hk
    rw [horigin.kid]
    exact horigin.usable.name

end Documents

/-! ## 3. Acceptance -/

section Acceptance

variable {J J' : Jwks PKey}

/-- A key without its thumbprint. -/
def Key.bare (k : Key PKey) : Key PKey := { k with thumbprint := [] }

theorem Fades.bare {k k' : Key PKey} (h : Fades k k') : k'.bare = k.bare := by
  rcases h with rfl | rfl <;> rfl

theorem Fades.thumbprint {k k' : Key PKey} (h : Fades k k') (hne : k'.thumbprint ≠ []) :
    k.thumbprint = k'.thumbprint := by
  rcases h with rfl | rfl
  · rfl
  · exact absurd rfl hne

theorem kid_eq_of_bare {k k' : Key PKey} (h : k'.bare = k.bare) : k'.kid = k.kid := by
  show k'.bare.kid = k.bare.kid
  rw [h]

/-- A key verifies the same without its thumbprint. -/
theorem verifyWithKey_bare (k : Key PKey) :
    verifyWithKey E (primitive E) k.bare = verifyWithKey E (primitive E) k := rfl

theorem verifyRawWithKey_bare (k : Key PKey) :
    verifyRawWithKey E (primitive E) k.bare = verifyRawWithKey E (primitive E) k := rfl

/-- Each key of `J'` is a key of `J`, thumbprints apart, and may verify there what it may verify
in `J'`. -/
def Narrows (J J' : Jwks PKey) : Prop :=
  ∀ k' ∈ J'.walk, ∃ k ∈ J.walk, k'.bare = k.bare ∧ ∀ kid, Eligible J' kid k' → Eligible J kid k

theorem Narrows.accepts (h : Narrows J J') {t : Token}
    (ht : PolicyAccepts E (primitive E) t J') : PolicyAccepts E (primitive E) t J := by
  obtain ⟨alg, ha, hname, hne, hsig, k', hk', hel, hcompat, hacc⟩ := ht
  obtain ⟨k, hk, hbare, heligible⟩ := h k' hk'
  have hverify := verifyWithKey_accepted_iff.mpr ⟨hcompat, hacc⟩
  rw [← verifyWithKey_bare, hbare, verifyWithKey_bare] at hverify
  exact ⟨alg, ha, hname, hne, hsig, k, hk, heligible _ hel,
    verifyWithKey_accepted_iff.mp hverify⟩

theorem Narrows.verify (h : Narrows J J') {token : Option Token} {pool : Option Pool}
    (hok : jwsVerify E (primitive E) token (some J') pool = .ok) :
    jwsVerify E (primitive E) token (some J) pool = .ok := by
  cases token with
  | none => exact Rc.noConfusion hok
  | some t =>
    cases pool with
    | none => exact Rc.noConfusion hok
    | some pool => exact jwsVerify_ok_iff.mpr (h.accepts (jwsVerify_ok_iff.mp hok))

theorem Narrows.verifyByKid (h : Narrows J J') {kid alg msg sig : Option Bytes}
    {pool : Option Pool}
    (hok : jwksVerifyRawByKid E (primitive E) (some J') kid alg msg sig pool = .ok) :
    jwksVerifyRawByKid E (primitive E) (some J) kid alg msg sig pool = .ok := by
  match kid, msg, sig, pool with
  | none, _, _, _ => exact Rc.noConfusion hok
  | some _, none, _, _ => exact Rc.noConfusion hok
  | some _, some _, none, _ => exact Rc.noConfusion hok
  | some _, some _, some _, none => exact Rc.noConfusion hok
  | some kid, some msg, some sig, some pool =>
    obtain ⟨hsig, hne, k', hk', hkid, hraw⟩ := jwksVerifyRawByKid_ok_iff.mp hok
    obtain ⟨k, hk, hbare, -⟩ := h k' hk'
    rw [← verifyRawWithKey_bare, hbare, verifyRawWithKey_bare] at hraw
    exact jwksVerifyRawByKid_ok_iff.mpr
      ⟨hsig, hne, k, hk, (kid_eq_of_bare hbare).symm.trans hkid, hraw⟩

/-- Each of two related lists has what the other one has. -/
theorem exists_of_forall₂ {α β : Type} {R : α → β → Prop} {l : List α} {l' : List β}
    (h : List.Forall₂ R l l') {a : α} (ha : a ∈ l) : ∃ b ∈ l', R a b := by
  induction h with
  | nil => exact absurd ha List.not_mem_nil
  | @cons a' b l l' hab _ ih =>
    rcases List.mem_cons.mp ha with rfl | ha
    · exact ⟨b, List.mem_cons_self, hab⟩
    · obtain ⟨b', hb', hab'⟩ := ih ha
      exact ⟨b', List.mem_cons_of_mem b hb', hab'⟩

/-- Keysets with the same keys one by one, thumbprints apart. -/
theorem narrows_of_forall₂ (h : List.Forall₂ (fun k' k => k'.bare = k.bare) J'.walk J.walk) :
    Narrows J J' := by
  have hflip : List.Forall₂ (fun k k' : Key PKey => k'.bare = k.bare) J.walk J'.walk := h.flip
  intro k' hk'
  obtain ⟨k, hk, hbare⟩ := exists_of_forall₂ h hk'
  refine ⟨k, hk, hbare, fun kid hel id hid => ?_⟩
  rw [← kid_eq_of_bare hbare]
  constructor
  · rintro ⟨q, hq, hqid⟩
    obtain ⟨q', hq', hqbare⟩ := exists_of_forall₂ hflip hq
    exact (hel id hid).1 ⟨q', hq', (kid_eq_of_bare hqbare).trans hqid⟩
  · intro hno
    refine (hel id hid).2 fun q' hq' hqid => ?_
    obtain ⟨q, hq, hqbare⟩ := exists_of_forall₂ h hq'
    exact hno q hq ((kid_eq_of_bare hqbare).symm.trans hqid)

/-- Keysets with fewer keys, all of which have a kid. -/
theorem narrows_of_sublistForall₂
    (h : List.SublistForall₂ (fun k' k => k'.bare = k.bare) J'.walk J.walk)
    (hkids : ∀ k ∈ J.walk, k.kid ≠ []) : Narrows J J' := by
  intro k' hk'
  obtain ⟨l, hl, hsub⟩ := List.sublistForall₂_iff.mp h
  obtain ⟨k, hk, hbare⟩ := exists_of_forall₂ hl hk'
  have hkid := kid_eq_of_bare hbare
  have hmem : k ∈ J.walk := hsub.subset hk
  refine ⟨k, hmem, hbare, fun kid hel id hid => ?_⟩
  -- a key with a kid verifies a token with a kid only by carrying it
  have hcarries : k.kid = id := by
    by_cases hex : ∃ q ∈ J'.walk, q.kid = id
    · exact hkid.symm.trans ((hel id hid).1 hex)
    · refine absurd (hkid.symm.trans ((hel id hid).2 fun q hq hqid => ?_)) (hkids k hmem)
      exact hex ⟨q, hq, hqid⟩
  exact ⟨fun _ => hcarries, fun hno => absurd hcarries (hno k hmem)⟩

/-- The two keysets judge tokens, and detached signatures by kid, alike when nothing fails, and know
the same kids. -/
structure JudgesAlike (E : Env PKey) (J J' : Jwks PKey) : Prop where
  token : ∀ token pool, jwsVerify E (primitive E) token (some J') pool =
    jwsVerify E (primitive E) token (some J) pool
  kid : ∀ kid alg msg sig pool, jwksVerifyRawByKid E (primitive E) (some J') kid alg msg sig pool =
    jwksVerifyRawByKid E (primitive E) (some J) kid alg msg sig pool
  hasKid : ∀ kid, hasKid (some J') kid = hasKid (some J) kid

theorem Narrows.hasKid (h : Narrows J J') {kid : Option Bytes}
    (hk : NxeJwx.hasKid (some J') kid = true) : NxeJwx.hasKid (some J) kid = true := by
  cases kid with
  | none => exact Bool.noConfusion hk
  | some kid =>
    obtain ⟨hne, k', hk', hkid⟩ := hasKid_iff.mp hk
    obtain ⟨k, hk, hbare, -⟩ := h k' hk'
    exact hasKid_iff.mpr ⟨hne, k, hk, (kid_eq_of_bare hbare).symm.trans hkid⟩

theorem judgesAlike_of_narrows (h : Narrows J J') (h' : Narrows J' J) : JudgesAlike E J J' where
  token token pool := by
    cases token with
    | none => rfl
    | some t =>
      cases pool with
      | none => rfl
      | some pool =>
        have hne : ∀ J : Jwks PKey,
            jwsVerify E (primitive E) (some t) (some J) (some pool) ≠ .error :=
          fun J herr => by simpa using jwsVerify_error_iff.mp herr
        exact Rc.eq_of_ok_iff (hne J') (hne J) ⟨h.verify, h'.verify⟩
  kid kid alg msg sig pool := by
    match kid, msg, sig, pool with
    | none, _, _, _ => rfl
    | some _, none, _, _ => rfl
    | some _, some _, none, _ => rfl
    | some _, some _, some _, none => rfl
    | some kid, some msg, some sig, some pool =>
      exact Rc.eq_of_ok_iff jwksVerifyRawByKid_ne_error jwksVerifyRawByKid_ne_error
        ⟨h.verifyByKid, h'.verifyByKid⟩
  hasKid kid := Bool.eq_iff_iff.mpr ⟨h.hasKid, h'.hasKid⟩

/-- Whatever fails in a verification under `J'`, it accepts no token that is not accepted under `J`,
and no detached signature by kid.  By thumbprint it accepts what some key of `J` with the thumbprint
accepts, which is not always the one that answers under `J`. -/
structure FailsClosed (E : Env PKey) (J J' : Jwks PKey) : Prop where
  token : ∀ V token pool, (jwsVerifyObjects E V token J' pool).val.rc = .ok →
    jwsVerify E (primitive E) token (some J) pool = .ok
  kid : ∀ V kid alg msg sig pool,
    (jwksVerifyRawByKidObjects E V J' kid alg msg sig pool).val = .ok →
      jwksVerifyRawByKid E (primitive E) (some J) kid alg msg sig pool = .ok
  thumbprint : ∀ V keyid alg msg sig pool,
    (jwksVerifyRawObjects E V J' (some keyid) alg (some msg) (some sig) (some pool)).val = .ok →
      ∃ k ∈ J.walk, k.thumbprint = keyid ∧ verifyRawWithKey E (primitive E) k alg msg sig = .ok

theorem failsClosed_of_narrows (h : Narrows J J')
    (hfades : ∀ k' ∈ J'.walk, ∃ k ∈ J.walk, Fades k k') : FailsClosed E J J' where
  token _ _ _ hok := h.verify (jwsVerify_of_objects hok)
  kid _ _ _ _ _ _ hok := h.verifyByKid (jwksVerifyRawByKid_of_objects hok)
  thumbprint V keyid alg msg sig pool hok := by
    obtain ⟨-, k', hfind, hraw⟩ := jwksVerifyRaw_ok_iff.mp (jwksVerifyRaw_of_objects hok)
    obtain ⟨hk', htp, hne⟩ := findByThumbprint_some hfind
    obtain ⟨k, hk, hf⟩ := hfades k' hk'
    rw [← verifyRawWithKey_bare, hf.bare, verifyRawWithKey_bare] at hraw
    refine ⟨k, hk, (hf.thumbprint ?_).trans htp, hraw⟩
    rw [htp]
    exact hne

end Acceptance

/-! ## 4. Tokens -/

/-- A token that is decoded is the token that is decoded when nothing fails. -/
theorem decode_noFault {f : DecodeFaults} {str : Option Bytes} {pool : Option Pool} {t : Token}
    (h : decode E f str pool = some t) : decode E noDecodeFaults str pool = some t := by
  match pool, str with
  | none, _ => exact absurd h (by simp [decode])
  | some _, none => exact absurd h (by simp [decode])
  | some _, some str =>
    obtain ⟨_, _, _, hd⟩ := decode_sound h
    exact decode_complete hd

section Issue

variable {f : EncodeFaults}

theorem evpSign_noFault {O : Ossl PKey} {p : PKey} {digest : Option Digest} {msg sig : Bytes}
    {pss : Bool} (h : evpSign O f p digest msg pss = some sig) :
    evpSign O noEncodeFaults p digest msg pss = some sig := by
  obtain ⟨hmd, c, hc, hsig⟩ := evpSign_eq_some h
  unfold signContext at hc
  cases hinit : O.digestSignInit p digest with
  | none =>
    rw [hinit] at hc
    exact absurd hc (by simp)
  | some fresh =>
    rw [hinit] at hc
    dsimp only at hc
    simp [evpSign, hmd, hinit, hc, hsig, noEncodeFaults]

theorem hmacSign_noFault {secret msg mac : Bytes} {digest : Option Digest}
    (h : hmacSign E.ossl f secret digest msg = some mac) :
    hmacSign E.ossl noEncodeFaults secret digest msg = some mac := by
  obtain ⟨md, rfl, hname, hmac⟩ := hmacSign_eq_some h
  simp [hmacSign, hname, hmac, noEncodeFaults]

theorem signWithPrivkey_noFault {a : Alg} {key sig : Bytes} {sign sign' : PKey → Option Bytes}
    (hsign : ∀ p, sign p = some sig → sign' p = some sig)
    (h : (signWithPrivkey E f a key sign).sig = some sig) :
    signWithPrivkey E noEncodeFaults a key sign' = signWithPrivkey E f a key sign := by
  have hbio : ¬ f .bio = true := by
    intro hbio
    simp only [signWithPrivkey, loadPemPrivkey, hbio, if_true] at h
    exact absurd h (by simp)
  unfold signWithPrivkey loadPemPrivkey at h ⊢
  rw [if_neg hbio] at h ⊢
  rw [if_neg (show ¬ noEncodeFaults .bio = true from Bool.noConfusion)]
  cases hread : E.ossl.pemReadPrivateKey key with
  | none => rfl
  | some pkey =>
    simp only [hread] at h ⊢
    split
    · rfl
    next hcompat =>
      rw [if_neg hcompat] at h
      have hsig : sign pkey = some sig := h
      rw [hsign pkey hsig, hsig]

/-- A signature that is made is the signature that is made when nothing fails. -/
theorem signRaw_noFault {a : Alg} {key msg sig : Bytes}
    (h : (signRaw E f a key msg).sig = some sig) :
    signRaw E noEncodeFaults a key msg = signRaw E f a key msg := by
  unfold signRaw at h ⊢
  cases hfamily : a.family with
  | rsa | rsaPss | eddsa =>
    rw [hfamily] at h
    exact signWithPrivkey_noFault (fun p hp => evpSign_noFault hp) h
  | ecdsa =>
    rw [hfamily] at h
    refine signWithPrivkey_noFault (fun p hp => ?_) h
    cases hder : evpSign E.ossl f p a.digest msg false with
    | none =>
      rw [hder] at hp
      exact absurd hp (by simp)
    | some der =>
      rw [hder] at hp
      rw [evpSign_noFault hder]
      exact ecdsaDerToRaw_eq_some_iff.mpr ⟨rfl, (ecdsaDerToRaw_eq_some_iff.mp hp).2⟩
  | hmac =>
    rw [hfamily] at h
    dsimp only at h ⊢
    split
    next hhmac =>
      rw [if_pos hhmac] at h
      rw [hmacSign_noFault h]
      exact congrArg (Signed.mk none) h.symm
    · rfl

/-- A header that is built is the header that is built when nothing fails. -/
theorem buildHeader_noFault {algName : Bytes} {kid : Option Bytes} {header : Bytes}
    (h : buildHeader E f algName kid = some header) :
    buildHeader E noEncodeFaults algName kid = some header := by
  have hkid : ∀ member, kidMember E f kid = some member →
      kidMember E noEncodeFaults kid = some member := by
    intro member hm
    cases kid with
    | none => exact hm
    | some kid =>
      unfold kidMember at hm ⊢
      dsimp only at hm ⊢
      split
      next hlen =>
        rw [if_pos hlen] at hm
        by_cases hf : (f .kidNode || f .kidText) = true
        · rw [if_pos hf] at hm
          exact absurd hm (by simp)
        · rw [if_neg hf] at hm
          exact hm
      next hlen =>
        rw [if_neg hlen] at hm
        exact hm
  unfold buildHeader at h ⊢
  cases hm : kidMember E f kid with
  | none =>
    rw [hm] at h
    exact absurd h (by simp)
  | some member =>
    rw [hm] at h
    rw [hkid member hm]
    exact (Option.ite_none_left_eq_some.mp h).2 ▸ rfl

theorem encodePrepare_noFault {alg claims : Bytes} {kid : Option Bytes} {r : Alg × Bytes}
    (h : encodePrepare E f alg kid claims = .ok r) :
    encodePrepare E noEncodeFaults alg kid claims = .ok r := by
  unfold encodePrepare at h ⊢
  by_cases hsize : claims.length > maxJwtSize
  · rw [if_pos hsize] at h
    exact absurd h (by simp)
  rw [if_neg hsize] at h ⊢
  by_cases hnone : isName alg (ascii "none") = true
  · rw [if_pos hnone] at h
    exact absurd h (by simp)
  rw [if_neg hnone] at h ⊢
  cases ha : lookupAlg E.haveHmac alg with
  | none =>
    rw [ha] at h
    exact absurd h (by simp)
  | some a =>
    rw [ha] at h
    dsimp only at h ⊢
    cases hclaims : validateClaimsObject E (f .claimsJson) claims with
    | false =>
      rw [hclaims] at h
      exact absurd h (by simp)
    | true =>
      obtain ⟨v, hparse, hobj⟩ := validateClaimsObject_eq_true hclaims
      have hclaims' : validateClaimsObject E (noEncodeFaults .claimsJson) claims = true := by
        simp [validateClaimsObject, noEncodeFaults, hparse, hobj]
      rw [hclaims] at h
      rw [hclaims']
      cases hheader : buildHeader E f a.name kid with
      | none =>
        rw [hheader] at h
        exact absurd h (by simp)
      | some header =>
        rw [hheader] at h
        rw [buildHeader_noFault hheader]
        dsimp only at h ⊢
        cases hh : encodeB64url E (f .headerB64) header with
        | none =>
          rw [hh] at h
          exact absurd h (by simp)
        | some headerB64 =>
          cases hp : encodeB64url E (f .payloadB64) claims with
          | none =>
            rw [hh, hp] at h
            exact absurd h (by simp)
          | some payloadB64 =>
            rw [hh, hp] at h
            rw [show encodeB64url E (noEncodeFaults .headerB64) header = some headerB64 from
                encodeB64url_noFault hh,
              show encodeB64url E (noEncodeFaults .payloadB64) claims = some payloadB64 from
                encodeB64url_noFault hp]
            simp only [Bool.not_true, Bool.false_eq_true, if_false] at h ⊢
            by_cases hlen : headerB64.length > maxJwtHeader
            · rw [if_pos hlen] at h
              exact absurd h (by simp)
            rw [if_neg hlen] at h ⊢
            by_cases hinput : f .signingInput = true
            · rw [if_pos hinput] at h
              exact absurd h (by simp)
            rw [if_neg hinput] at h
            exact h

theorem encodeFinish_noFault {a : Alg} {key msg : Bytes}
    (h : (encodeFinish E f a key msg).rc = .ok) :
    encodeFinish E noEncodeFaults a key msg = encodeFinish E f a key msg := by
  have hfail : ∀ stop pkey, (EncodeRun.fail stop pkey : EncodeRun PKey).rc ≠ .ok :=
    fun _ _ hrc => Rc.noConfusion hrc
  unfold encodeFinish at h ⊢
  dsimp only at h ⊢
  cases hsig : (signRaw E f a key msg).sig with
  | none =>
    rw [hsig] at h
    exact absurd h (hfail _ _)
  | some sig =>
    rw [signRaw_noFault hsig, hsig]
    rw [hsig] at h
    dsimp only at h ⊢
    cases hb64 : encodeB64url E (f .sigB64) sig with
    | none =>
      rw [hb64] at h
      exact absurd h (hfail _ _)
    | some sigB64 =>
      rw [hb64] at h
      rw [show encodeB64url E (noEncodeFaults .sigB64) sig = some sigB64 from
        encodeB64url_noFault hb64]
      dsimp only at h ⊢
      by_cases hlen : msg.length + 1 + sigB64.length > maxJwtSize
      · rw [if_pos hlen] at h
        exact absurd h (hfail _ _)
      rw [if_neg hlen] at h ⊢
      by_cases hout : f .out = true
      · rw [if_pos hout] at h
        exact absurd h (hfail _ _)
      rw [if_neg hout, if_neg hlen]
      rfl

/-- A token that is issued is the token that is issued when nothing fails. -/
theorem encode_noFault {pool : Option Pool} {alg kid claims key : Option Bytes}
    {out : Option OutStr} (h : (encode E f pool alg kid claims key out).rc = .ok) :
    encode E noEncodeFaults pool alg kid claims key out =
      encode E f pool alg kid claims key out := by
  obtain ⟨alg, claims, key, -, -, -, rfl, rfl, rfl, -⟩ := encode_ok h
  cases pool with
  | none => exact Rc.noConfusion h
  | some pool =>
  cases out with
  | none => exact Rc.noConfusion h
  | some out =>
  unfold encode at h ⊢
  dsimp only at h ⊢
  split
  · rfl
  next hargs =>
    rw [if_neg hargs] at h
    cases hprepare : encodePrepare E f alg kid claims with
    | error stop =>
      rw [hprepare] at h
      exact Rc.noConfusion h
    | ok r =>
      rw [encodePrepare_noFault hprepare]
      rw [hprepare] at h
      exact encodeFinish_noFault h

end Issue

/-! ## 5. The result -/

/-- **Failing steps.**  Whatever steps of the calls fail, and whatever objects of either version of
OpenSSL cannot be made: tokens that come out are those that come out when nothing fails; a JWKS
that parses gives the keys that it gives then, but for thumbprints, and judges tokens alike; a
keyval document that parses gives some of the keys, but for thumbprints; and no verification of a
token or by kid, itself with failing steps, accepts under such a keyset what is not accepted when
nothing fails.  A verification by thumbprint accepts only what one of the keys with that thumbprint
accepts. -/
theorem faults_fail_closed (api : OsslApi) (E : Env PKey) (pool : Option Pool) :
    (∀ f str t, decode E f str pool = some t → decode E noDecodeFaults str pool = some t) ∧
    (∀ F G doc J', (jwksParseObjects api E F G doc pool).val.jwks = some J' →
      ∃ J, jwksParse E noParseFaults doc pool = some J ∧
        List.Forall₂ Fades J.walk J'.walk ∧ JudgesAlike E J J' ∧ FailsClosed E J J') ∧
    (∀ F G doc J', (keyvalParseObjects api E F G doc pool).val.jwks = some J' →
      ∃ J, keyvalParse E noParseFaults doc pool = some J ∧
        List.SublistForall₂ (fun k' k => Fades k k') J'.walk J.walk ∧ FailsClosed E J J') ∧
    (∀ f alg kid claims key out,
      (encodeObjects E f pool alg kid claims key out .empty).val.rc = .ok →
        (encodeObjects E f pool alg kid claims key out .empty).val =
          (encode E noEncodeFaults pool alg kid claims key out).answer) := by
  refine ⟨fun f str t h => decode_noFault h, fun F G doc J' h => ?_, fun F G doc J' h => ?_,
    fun f alg kid claims key out h => ?_⟩
  · obtain ⟨F', -, hval⟩ := @val_jwksParseObjects _ api E F G doc pool
    obtain ⟨J, hJ, hfades⟩ := jwksParse_noFault (hval.symm.trans h)
    have hbare : List.Forall₂ (fun k k' : Key PKey => k.bare = k'.bare) J.walk J'.walk :=
      hfades.imp fun k k' hf => hf.bare.symm
    have hbare' : List.Forall₂ (fun k' k : Key PKey => k'.bare = k.bare) J'.walk J.walk :=
      (hfades.imp fun k k' hf => hf.bare : List.Forall₂ (flip _) _ _).flip
    have hnarrows := narrows_of_forall₂ hbare'
    refine ⟨J, hJ, hfades, judgesAlike_of_narrows hnarrows (narrows_of_forall₂ hbare), ?_⟩
    refine failsClosed_of_narrows hnarrows fun k' hk' => ?_
    have hflip : List.Forall₂ (fun k' k => Fades k k') J'.walk J.walk := hfades.flip
    exact exists_of_forall₂ hflip hk'
  · obtain ⟨F', -, hval⟩ := @val_keyvalParseObjects _ api E F G doc pool
    obtain ⟨J, hJ, hfades, hkids⟩ := keyvalParse_noFault (hval.symm.trans h)
    obtain ⟨l, hl, hsub⟩ := List.sublistForall₂_iff.mp hfades
    have hbare : List.SublistForall₂ (fun k' k : Key PKey => k'.bare = k.bare) J'.walk J.walk :=
      List.sublistForall₂_iff.mpr ⟨l, hl.imp fun k' k hf => hf.bare, hsub⟩
    refine ⟨J, hJ, hfades, failsClosed_of_narrows (narrows_of_sublistForall₂ hbare hkids) ?_⟩
    intro k' hk'
    obtain ⟨k, hk, hf⟩ := exists_of_forall₂ hl hk'
    exact ⟨k, hsub.subset hk, hf⟩
  · rw [val_encodeObjects] at h ⊢
    rw [encode_noFault h]

end NxeJwx
