/-
# Which keys a verification tries

The verifying entry points over candidates that stand for keys (`key`), with trials that leave a
trace.  The candidates may be the keys themselves, the slots they sit in or their positions, and
the events whatever a trial does; the report is that of the functions of `Verify.lean`.

The two passes of `nxe_jwx_jws_verify` come to one loop over the keys that the policy allows
(`events_passesTraced`): pass 2 runs only when pass 1 tried nothing.  So no key is tried twice and
none after the one that is accepted; a token that is declined was tried against every key it
may be tried against (`verification_trials`).
-/
import NxeJwx.Lib.TracedTry
import NxeJwx.Policy
import NxeJwx.Representation

namespace NxeJwx

open TryEach Traced

variable {PKey α ε : Type}

/-! ## 1. The code -/

/-- Pass 1 of `nxe_jwx_jws_verify`. -/
def passOneTraced (key : α → Key PKey) (verify : α → Traced ε Trial) (kid : Bytes)
    (cs : List α) : Traced ε Report :=
  tryEachTraced (fun c => decide ((key c).kid.length ≠ 0) && strEq kid (key c).kid) verify cs
    .start

/-- Pass 2 of `nxe_jwx_jws_verify`. -/
def passTwoTraced (key : α → Key PKey) (verify : α → Traced ε Trial) (hasKid : Bool)
    (cs : List α) (r : Report) : Traced ε Report :=
  tryEachTraced (fun c => !(hasKid && decide ((key c).kid.length > 0))) verify cs r

/-- The two passes of `nxe_jwx_jws_verify`. -/
def passesTraced (key : α → Key PKey) (verify : α → Traced ε Trial) (kid : Option Bytes)
    (cs : List α) : Traced ε Report := do
  let r1 ← (match kid with
    | none => return .start
    | some id => passOneTraced key verify id cs : Traced ε Report)
  if r1.hit then return r1
  else if kid.isSome && r1.matched then return r1
  else passTwoTraced key verify kid.isSome cs r1

/-- `nxe_jwx_jws_verify`. -/
def jwsVerifyTraced (E : Env PKey) (key : α → Key PKey)
    (verify : α → Alg → Bytes → Bytes → Traced ε Trial) (token : Option Token)
    (keys : Option (List α)) (pool : Option Pool) : Traced ε VerifyRun :=
  match token, keys, pool with
  | some t, some cs, some _ =>
    match tokenAlg (some t) with
    | none => return ⟨.declined, false⟩
    | some algStr =>
      if isName algStr (ascii "none") then return ⟨.declined, false⟩
      else
        match lookupAlg E.haveHmac algStr with
        | none => return ⟨.declined, false⟩
        | some alg =>
          if t.signature.length = 0 then return ⟨.declined, false⟩
          else do
            let r ← passesTraced key (fun c => verify c alg t.signingInput t.signature)
              (tokenKid (some t)) cs
            if r.hit then return ⟨.ok, false⟩ else return ⟨.declined, r.failed⟩
  | _, _, _ => return ⟨.error, false⟩

/-- The loop of `nxe_jwx_alg_from_key` over the curves. -/
def curveScanTraced (O : Ossl PKey) (pkey : Option PKey) :
    List Alg → Traced (KeyCall PKey) (Option Alg)
  | [] => return none
  | a :: as =>
    if a.family == .ecdsa then
      match a.ecCurve with
      | none => curveScanTraced O pkey as
      | some curve => do
        if ← ecCurveMatchesTraced O pkey curve then return some a else curveScanTraced O pkey as
    else curveScanTraced O pkey as

/-- `nxe_jwx_alg_from_key`. -/
def algFromKeyTraced (E : Env PKey) (k : Key PKey) : Traced (KeyCall PKey) (Option Alg) :=
  match k.kty with
  | .okp => return (algs E.haveHmac).find? fun a => a.family == .eddsa
  | .ec => curveScanTraced E.ossl k.pkey (algs E.haveHmac)
  | _ => return none

/-- The algorithm a raw verification uses. -/
def resolveAlgTraced (E : Env PKey) (k : Key PKey) (algStr : Option Bytes) :
    Traced (KeyCall PKey) (Option Alg) :=
  match algStr with
  | none => algFromKeyTraced E k
  | some s => if s.length > 0 then return lookupAlg E.haveHmac s else algFromKeyTraced E k

/-- `nxe_jwx_jwks_verify_raw_with_key`. -/
def verifyRawWithKeyTraced (E : Env PKey) (k : Key PKey) (algStr : Option Bytes)
    (msg sig : Bytes) : Traced (KeyCall PKey) Rc := do
  match ← resolveAlgTraced E k algStr with
  | none => return .declined
  | some alg =>
    match ← verifyWithKeyTraced E k alg msg sig with
    | .accepted => return .ok
    | _ => return .declined

/-- `nxe_jwx_jwks_verify_raw`. -/
def jwksVerifyRawTraced (key : α → Key PKey)
    (verifyRaw : α → Option Bytes → Bytes → Bytes → Traced ε Rc) (keys : Option (List α))
    (keyid algStr msg sig : Option Bytes) (pool : Option Pool) : Traced ε Rc :=
  match keys, keyid, msg, sig, pool with
  | some cs, some keyid, some msg, some sig, some _ =>
    if sig.length = 0 then return .declined
    else if keyid.length = 0 then return .declined
    else
      match cs.find? fun c =>
          decide ((key c).thumbprint.length > 0) && strEq (key c).thumbprint keyid with
      | none => return .declined
      | some c => verifyRaw c algStr msg sig
  | _, _, _, _, _ => return .error

/-- One turn of the loop of `nxe_jwx_jwks_verify_raw_by_kid`. -/
def rawTrialTraced (verifyRaw : α → Option Bytes → Bytes → Bytes → Traced ε Rc)
    (algStr : Option Bytes) (msg sig : Bytes) (c : α) : Traced ε Trial := do
  match ← verifyRaw c algStr msg sig with
  | .ok => return .accepted
  | _ => return .rejected

/-- `nxe_jwx_jwks_verify_raw_by_kid`. -/
def jwksVerifyRawByKidTraced (key : α → Key PKey)
    (verifyRaw : α → Option Bytes → Bytes → Bytes → Traced ε Rc) (keys : Option (List α))
    (kid algStr msg sig : Option Bytes) (pool : Option Pool) : Traced ε Rc :=
  match keys, kid, msg, sig, pool with
  | some cs, some kid, some msg, some sig, some _ =>
    if sig.length = 0 then return .declined
    else do
      let r ← tryEachTraced (fun c => decide ((key c).kid.length ≠ 0) && strEq kid (key c).kid)
        (rawTrialTraced verifyRaw algStr msg sig) cs .start
      if r.hit then return .ok else return .declined
  | _, _, _, _, _ => return .error

/-! ## 2. The same reports -/

variable {E : Env PKey} {crypto : Crypto PKey} {key : α → Key PKey}

/-- A loop over candidates reports what the loop over their keys does. -/
theorem val_tryEach_key (eligible : Key PKey → Bool) {verify : α → Traced ε Trial}
    {verify' : Key PKey → Trial} (h : ∀ c, (verify c).val = verify' (key c)) (cs : List α)
    (r : Report) : (tryEachTraced (fun c => eligible (key c)) verify cs r).val =
      tryEach eligible verify' (cs.map key) r := by
  rw [val_tryEachTraced]
  refine tryEach_forall₂ ?_ r
  rw [List.forall₂_map_right_iff]
  exact List.forall₂_same.mpr fun c _ => ⟨rfl, fun _ => h c⟩

theorem val_passesTraced {verify : α → Traced ε Trial} {verify' : Key PKey → Trial}
    (h : ∀ c, (verify c).val = verify' (key c)) (kid : Option Bytes) {cs : List α}
    {J : Jwks PKey} (hJ : J.walk = cs.map key) :
    (passesTraced key verify kid cs).val = passes verify' kid J := by
  have htwo : ∀ b r, (passTwoTraced key verify b cs r).val = passTwo verify' b J r := by
    intro b r
    rw [passTwo, hJ]
    exact val_tryEach_key (fun k => !(b && decide (k.kid.length > 0))) h cs r
  unfold passesTraced passes
  cases kid with
  | none =>
    rw [val_bind, val_pure]
    exact htwo _ _
  | some id =>
    have hone : (passOneTraced key verify id cs).val = passOne verify' id J := by
      rw [passOne, hJ]
      exact val_tryEach_key (fun k => decide (k.kid.length ≠ 0) && strEq id k.kid) h cs .start
    rw [val_bind, hone]
    dsimp only
    split
    · rfl
    split
    · rfl
    · exact htwo _ _

/-- `nxe_jwx_jws_verify`, without its trace. -/
theorem val_jwsVerifyTraced {verify : α → Alg → Bytes → Bytes → Traced ε Trial}
    (h : ∀ c alg msg sig, (verify c alg msg sig).val =
      verifyWithKey E crypto (key c) alg msg sig)
    (token : Option Token) {cs : List α} {J : Jwks PKey} (hJ : J.walk = cs.map key)
    (pool : Option Pool) :
    (jwsVerifyTraced E key verify token (some cs) pool).val =
      jwsVerifyRun E crypto token (some J) pool := by
  unfold jwsVerifyTraced jwsVerifyRun
  cases token with
  | none => rfl
  | some t =>
  cases pool with
  | none => rfl
  | some pool =>
  dsimp only
  cases tokenAlg (some t) with
  | none => rfl
  | some algStr =>
    dsimp only
    split
    · rfl
    cases lookupAlg E.haveHmac algStr with
    | none => rfl
    | some alg =>
      dsimp only
      split
      · rfl
      have hpasses : (passesTraced key (fun c => verify c alg t.signingInput t.signature)
            (tokenKid (some t)) cs).val =
          passes (fun k => verifyWithKey E crypto k alg t.signingInput t.signature)
            (tokenKid (some t)) J :=
        val_passesTraced (fun c => h c alg t.signingInput t.signature) _ hJ
      rw [val_bind, hpasses]
      split <;> rfl

theorem val_curveScanTraced (O : Ossl PKey) (pkey : Option PKey) (as : List Alg) :
    (curveScanTraced O pkey as).val =
      as.find? fun a => a.family == .ecdsa && a.ecCurve.any (ecCurveMatches O pkey) := by
  induction as with
  | nil => rfl
  | cons a as ih =>
    unfold curveScanTraced
    rw [List.find?_cons]
    cases hf : (a.family == .ecdsa) with
    | false => exact ih
    | true =>
      cases a.ecCurve with
      | none => exact ih
      | some curve =>
        rw [if_pos rfl, val_bind, Option.any_some, Bool.true_and]
        show (if ecCurveMatches O pkey curve = true then _ else _ : Traced _ _).val = _
        cases ecCurveMatches O pkey curve with
        | true => rfl
        | false => exact ih

theorem val_resolveAlgTraced (k : Key PKey) (algStr : Option Bytes) :
    (resolveAlgTraced E k algStr).val = resolveAlg E k algStr := by
  have hkey : (algFromKeyTraced E k).val = algFromKey E k := by
    unfold algFromKeyTraced algFromKey
    cases k.kty with
    | ec => exact val_curveScanTraced ..
    | unknown | rsa | okp | oct => rfl
  unfold resolveAlgTraced resolveAlg
  cases algStr with
  | none => exact hkey
  | some s =>
    dsimp only
    split
    · rfl
    · exact hkey

/-- `nxe_jwx_jwks_verify_raw_with_key`, without its trace. -/
theorem val_verifyRawWithKeyTraced (k : Key PKey) (algStr : Option Bytes) (msg sig : Bytes) :
    (verifyRawWithKeyTraced E k algStr msg sig).val =
      verifyRawWithKey E (primitive E) k algStr msg sig := by
  unfold verifyRawWithKeyTraced verifyRawWithKey
  rw [val_bind, val_resolveAlgTraced]
  cases resolveAlg E k algStr with
  | none => rfl
  | some alg =>
    dsimp only
    rw [val_bind, val_verifyWithKeyTraced]
    cases verifyWithKey E (primitive E) k alg msg sig <;> rfl

section Raw

variable {verifyRaw : α → Option Bytes → Bytes → Bytes → Traced ε Rc}

/-- `nxe_jwx_jwks_verify_raw`, without its trace. -/
theorem val_jwksVerifyRawTraced
    (h : ∀ c algStr msg sig, (verifyRaw c algStr msg sig).val =
      verifyRawWithKey E crypto (key c) algStr msg sig)
    {cs : List α} {J : Jwks PKey} (hJ : J.walk = cs.map key) (keyid algStr msg sig : Option Bytes)
    (pool : Option Pool) :
    (jwksVerifyRawTraced key verifyRaw (some cs) keyid algStr msg sig pool).val =
      jwksVerifyRaw E crypto (some J) keyid algStr msg sig pool := by
  unfold jwksVerifyRawTraced jwksVerifyRaw
  cases keyid with
  | none => rfl
  | some keyid =>
  cases msg with
  | none => rfl
  | some msg =>
  cases sig with
  | none => rfl
  | some sig =>
  cases pool with
  | none => rfl
  | some pool =>
  dsimp only [findByThumbprint]
  split
  · rfl
  split
  · rfl
  rw [hJ, List.find?_map]
  cases hfind : cs.find? fun c =>
      decide ((key c).thumbprint.length > 0) && strEq (key c).thumbprint keyid with
  | none => simp only [Function.comp_def, hfind, Option.map_none, val_pure]
  | some c => simp only [Function.comp_def, hfind, Option.map_some, h]

/-- `nxe_jwx_jwks_verify_raw_by_kid`, without its trace. -/
theorem val_jwksVerifyRawByKidTraced
    (h : ∀ c algStr msg sig, (verifyRaw c algStr msg sig).val =
      verifyRawWithKey E crypto (key c) algStr msg sig)
    {cs : List α} {J : Jwks PKey} (hJ : J.walk = cs.map key) (kid algStr msg sig : Option Bytes)
    (pool : Option Pool) :
    (jwksVerifyRawByKidTraced key verifyRaw (some cs) kid algStr msg sig pool).val =
      jwksVerifyRawByKid E crypto (some J) kid algStr msg sig pool := by
  unfold jwksVerifyRawByKidTraced jwksVerifyRawByKid
  cases kid with
  | none => rfl
  | some kid =>
  cases msg with
  | none => rfl
  | some msg =>
  cases sig with
  | none => rfl
  | some sig =>
  cases pool with
  | none => rfl
  | some pool =>
  dsimp only
  have htrial : ∀ c, (rawTrialTraced verifyRaw algStr msg sig c).val =
      rawTrial E crypto algStr msg sig (key c) := by
    intro c
    unfold rawTrialTraced rawTrial
    rw [val_bind, h]
    cases verifyRawWithKey E crypto (key c) algStr msg sig <;> rfl
  split
  · rfl
  rw [val_bind, hJ,
    val_tryEach_key (fun k => decide (k.kid.length ≠ 0) && strEq kid k.kid) htrial]
  split <;> rfl

end Raw

/-! ## 3. The two passes as one loop -/

/-- The policy's test on a candidate. -/
def allowed (key : α → Key PKey) (kid : Option Bytes) (cs : List α) (c : α) : Bool :=
  match kid with
  | none => true
  | some id => if cs.any fun c' => (key c').kid == id then (key c).kid == id else (key c).kid == []

/-- It is the policy. -/
theorem allowed_iff {kid : Option Bytes} {cs : List α} {J : Jwks PKey} (hJ : J.walk = cs.map key)
    (c : α) : allowed key kid cs c = true ↔ Eligible J kid (key c) := by
  cases kid with
  | none => simp [allowed]
  | some id =>
    have hany : (cs.any fun c' => (key c').kid == id) = true ↔ ∃ k ∈ J.walk, k.kid = id := by
      rw [List.any_eq_true, hJ]
      simp
    unfold allowed
    dsimp only
    by_cases h : ∃ k ∈ J.walk, k.kid = id
    · rw [if_pos (hany.mpr h), eligible_of_labelled h, beq_iff_eq]
    · have h' : ∀ k ∈ J.walk, k.kid ≠ id := fun k hk hid => h ⟨k, hk, hid⟩
      rw [if_neg fun ha => h (hany.mp ha), eligible_of_unlabelled h', beq_iff_eq]

/-- The loop over the candidates, for a test that is the policy. -/
theorem tryEachTraced_allowed {key : α → Key PKey} {verify : α → Traced ε Trial}
    {kid : Option Bytes} {cs : List α} {p : α → Bool} (hp : ∀ c ∈ cs, p c = allowed key kid cs c) :
    (tryEachTraced p verify cs .start).val =
        tryEach (allowed key kid cs) (fun c => (verify c).val) cs .start ∧
      (tryEachTraced p verify cs .start).events =
        (tried (allowed key kid cs) (fun c => (verify c).val) cs).flatMap
          fun c => (verify c).events := by
  rw [val_tryEachTraced, events_tryEachTraced, tried_congr hp]
  refine ⟨tryEach_forall₂ ?_ .start, rfl⟩
  exact List.forall₂_same.mpr fun c hc => ⟨hp c hc, fun _ => rfl⟩

/-- With a kid that a candidate carries there is pass 1, else there is pass 2, over the candidates
that the policy allows. -/
theorem passesTraced_eq (key : α → Key PKey) (verify : α → Traced ε Trial) {kid : Option Bytes}
    (hkid : kid ≠ some []) (cs : List α) :
    (passesTraced key verify kid cs).val.hit =
        (tryEach (allowed key kid cs) (fun c => (verify c).val) cs .start).hit ∧
      (passesTraced key verify kid cs).val.failed =
        (tryEach (allowed key kid cs) (fun c => (verify c).val) cs .start).failed ∧
      (passesTraced key verify kid cs).events =
        (tried (allowed key kid cs) (fun c => (verify c).val) cs).flatMap
          fun c => (verify c).events := by
  unfold passesTraced
  cases kid with
  | none =>
    have hallowed : ∀ c ∈ cs, (!(false && decide ((key c).kid.length > 0))) =
        allowed key none cs c := fun c _ => rfl
    obtain ⟨hval, hevents⟩ := tryEachTraced_allowed hallowed
    rw [val_bind, events_bind, val_pure, events_pure, List.nil_append]
    exact ⟨congrArg Report.hit hval, congrArg Report.failed hval, hevents⟩
  | some id =>
    have hid : id ≠ [] := fun h => hkid (by rw [h])
    have htest : ∀ c, (decide ((key c).kid.length ≠ 0) && strEq id (key c).kid) =
        ((key c).kid == id) := by
      intro c
      rw [Bool.eq_iff_iff, kid_test_iff hid, beq_iff_eq]
    rw [val_bind, events_bind]
    dsimp only
    by_cases hany : (cs.any fun c' => (key c').kid == id) = true
    · -- pass 1 tries the candidates with this kid, and pass 2 is skipped
      have hallowed : ∀ c ∈ cs, (decide ((key c).kid.length ≠ 0) && strEq id (key c).kid) =
          allowed key (some id) cs c := by
        intro c _
        rw [htest, allowed, if_pos hany]
      obtain ⟨hval, hevents⟩ := tryEachTraced_allowed hallowed
      have hmatched : (passOneTraced key verify id cs).val.matched = true := by
        rw [passOneTraced, val_tryEachTraced, tryEach_start_matched_iff]
        obtain ⟨c, hc, hck⟩ := List.any_eq_true.mp hany
        exact ⟨c, hc, (htest c).trans hck⟩
      rw [hmatched, Option.isSome_some, Bool.true_and, if_pos rfl, ite_self, val_pure, events_pure,
        List.append_nil]
      exact ⟨congrArg Report.hit hval, congrArg Report.failed hval, hevents⟩
    · -- pass 1 tries none, and pass 2 those without a kid
      have hnone : ∀ c ∈ cs, (decide ((key c).kid.length ≠ 0) && strEq id (key c).kid) = false := by
        intro c hc
        rw [htest]
        exact Bool.eq_false_iff.mpr fun hck => hany (List.any_eq_true.mpr ⟨c, hc, hck⟩)
      obtain ⟨hrun, htried⟩ := tryEach_of_ineligible hnone .start
      have hval1 : (passOneTraced key verify id cs).val = .start := by
        rw [passOneTraced, val_tryEachTraced, hrun]
      have hevents1 : (passOneTraced key verify id cs).events = [] := by
        rw [passOneTraced, events_tryEachTraced, htried, List.flatMap_nil]
      have hallowed : ∀ c ∈ cs, (!(true && decide ((key c).kid.length > 0))) =
          allowed key (some id) cs c := by
        intro c _
        rw [allowed, if_neg hany, Bool.eq_iff_iff, beq_iff_eq]
        simp
      obtain ⟨hval, hevents⟩ := tryEachTraced_allowed hallowed
      rw [hval1, hevents1, List.nil_append]
      exact ⟨congrArg Report.hit hval, congrArg Report.failed hval, hevents⟩

/-! ## 4. What the trials do, the verification does -/

section Only

variable {P : ε → Prop} {verify : α → Alg → Bytes → Bytes → Traced ε Trial}
  {verifyRaw : α → Option Bytes → Bytes → Bytes → Traced ε Rc} {cs : List α}

theorem only_passesTraced {verify : α → Traced ε Trial} (h : ∀ c ∈ cs, Only P (verify c))
    (kid : Option Bytes) : Only P (passesTraced key verify kid cs) := by
  unfold passesTraced
  refine .bind ?_ (.ite (fun _ => .pure _) fun _ => .ite (fun _ => .pure _) fun _ => ?_)
  · cases kid with
    | none => exact .pure _
    | some id => exact only_tryEachTraced h _
  · exact only_tryEachTraced h _

theorem only_jwsVerifyTraced (h : ∀ c ∈ cs, ∀ alg msg sig, Only P (verify c alg msg sig))
    (token : Option Token) (pool : Option Pool) :
    Only P (jwsVerifyTraced E key verify token (some cs) pool) := by
  unfold jwsVerifyTraced
  cases token with
  | none => exact .pure _
  | some t =>
  cases pool with
  | none => exact .pure _
  | some pool =>
  dsimp only
  cases tokenAlg (some t) with
  | none => exact .pure _
  | some algStr =>
    refine .ite (fun _ => .pure _) fun _ => ?_
    cases lookupAlg E.haveHmac algStr with
    | none => exact .pure _
    | some alg =>
      refine .ite (fun _ => .pure _) fun _ => ?_
      exact .bind (only_passesTraced (fun c hc => h c hc _ _ _) _)
        (.ite (fun _ => .pure _) fun _ => .pure _)

theorem only_jwksVerifyRawTraced
    (h : ∀ c ∈ cs, ∀ algStr msg sig, Only P (verifyRaw c algStr msg sig))
    (keyid algStr msg sig : Option Bytes) (pool : Option Pool) :
    Only P (jwksVerifyRawTraced key verifyRaw (some cs) keyid algStr msg sig pool) := by
  unfold jwksVerifyRawTraced
  cases keyid with
  | none => exact .pure _
  | some keyid =>
  cases msg with
  | none => exact .pure _
  | some msg =>
  cases sig with
  | none => exact .pure _
  | some sig =>
  cases pool with
  | none => exact .pure _
  | some pool =>
  refine .ite (fun _ => .pure _) fun _ => .ite (fun _ => .pure _) fun _ => ?_
  split
  · exact .pure _
  next c hfind => exact h c (List.mem_of_find?_eq_some hfind) _ _ _

theorem only_jwksVerifyRawByKidTraced
    (h : ∀ c ∈ cs, ∀ algStr msg sig, Only P (verifyRaw c algStr msg sig))
    (kid algStr msg sig : Option Bytes) (pool : Option Pool) :
    Only P (jwksVerifyRawByKidTraced key verifyRaw (some cs) kid algStr msg sig pool) := by
  unfold jwksVerifyRawByKidTraced
  cases kid with
  | none => exact .pure _
  | some kid =>
  cases msg with
  | none => exact .pure _
  | some msg =>
  cases sig with
  | none => exact .pure _
  | some sig =>
  cases pool with
  | none => exact .pure _
  | some pool =>
  refine .ite (fun _ => .pure _) fun _ => .bind (only_tryEachTraced ?_ _)
    (.ite (fun _ => .pure _) fun _ => .pure _)
  intro c hc
  refine .bind (h c hc _ _ _) ?_
  split <;> exact .pure _

end Only

section Calls

variable {P : KeyCall PKey → Prop} {k : Key PKey}

theorem only_curveScan (O : Ossl PKey) {pkey : Option PKey} (hp : P (.evp pkey))
    (as : List Alg) : Only P (curveScanTraced O pkey as) := by
  induction as with
  | nil => exact .pure _
  | cons a as ih =>
    unfold curveScanTraced
    refine .ite (fun _ => ?_) fun _ => ih
    cases a.ecCurve with
    | none => exact ih
    | some curve =>
      exact .bind (only_ecCurveMatches O hp curve) (.ite (fun _ => .pure _) fun _ => ih)

/-- To derive an algorithm the code asks for the curve of an EC key. -/
theorem only_resolveAlg (hp : k.kty ≠ .oct → P (.evp k.pkey)) (algStr : Option Bytes) :
    Only P (resolveAlgTraced E k algStr) := by
  have hkey : Only P (algFromKeyTraced E k) := by
    unfold algFromKeyTraced
    cases hk : k.kty with
    | ec => exact only_curveScan E.ossl (hp (by simp [hk])) _
    | unknown | rsa | okp | oct => exact .pure _
  unfold resolveAlgTraced
  cases algStr with
  | none => exact hkey
  | some s => exact .ite (fun _ => .pure _) fun _ => hkey

/-- The raw verification calls what the verifier calls. -/
theorem only_verifyRawWithKey (hp : k.kty ≠ .oct → P (.evp k.pkey))
    (hs : k.kty = .oct → P (.hmac k.hmacSecret)) (algStr : Option Bytes) (msg sig : Bytes) :
    Only P (verifyRawWithKeyTraced E k algStr msg sig) := by
  refine .bind (only_resolveAlg hp algStr) ?_
  cases (resolveAlgTraced E k algStr).val with
  | none => exact .pure _
  | some alg =>
    refine .bind (only_verifyWithKey hp hs alg msg sig) ?_
    cases (verifyWithKeyTraced E k alg msg sig).val <;> exact .pure _

end Calls

/-! ## 5. The trials of a verification -/

/-- What is checked before any key is tried: the algorithm, and that there is a signature. -/
def checkedAlg (E : Env PKey) (t : Token) : Option Alg :=
  match tokenAlg (some t) with
  | none => none
  | some algStr =>
    if isName algStr (ascii "none") then none
    else if t.signature.length = 0 then none
    else lookupAlg E.haveHmac algStr

/-- The algorithm that passes them is the one of the token. -/
theorem checkedAlg_some {t : Token} {alg : Alg} (h : checkedAlg E t = some alg) :
    alg ∈ algs E.haveHmac ∧ alg.name = t.alg := by
  unfold checkedAlg at h
  cases ht : tokenAlg (some t) with
  | none => simp [ht] at h
  | some algStr =>
    obtain ⟨rfl, -⟩ := tokenAlg_eq_some_iff.mp ht
    simp only [ht] at h
    split at h
    · exact absurd h (by simp)
    · split at h
      · exact absurd h (by simp)
      · exact lookupAlg_eq_some_iff.mp h

/-- `nxe_jwx_jws_verify`, by these checks and its passes. -/
theorem jwsVerifyTraced_eq (verify : α → Alg → Bytes → Bytes → Traced ε Trial) (t : Token)
    (cs : List α) (pool : Pool) :
    jwsVerifyTraced E key verify (some t) (some cs) (some pool) =
      match checkedAlg E t with
      | none => return ⟨.declined, false⟩
      | some alg => do
        let r ← passesTraced key (fun c => verify c alg t.signingInput t.signature)
          (tokenKid (some t)) cs
        if r.hit then return ⟨.ok, false⟩ else return ⟨.declined, r.failed⟩ := by
  unfold jwsVerifyTraced checkedAlg
  dsimp only
  cases tokenAlg (some t) with
  | none => rfl
  | some algStr =>
    dsimp only
    split
    · rfl
    by_cases hsig : t.signature.length = 0
    · simp only [if_pos hsig]
      cases lookupAlg E.haveHmac algStr <;> rfl
    · simp only [if_neg hsig]

/-- A call of `nxe_jwx_verify_with_key` that logs the position of its key. -/
def positionTrial (E : Env PKey) (crypto : Crypto PKey) (c : Key PKey × Nat) (alg : Alg)
    (msg sig : Bytes) : Traced Nat Trial := do
  emit c.2
  return verifyWithKey E crypto c.1 alg msg sig

/-- A verification that logs the position of each key it tries. -/
def verifyPositions (E : Env PKey) (crypto : Crypto PKey) (t : Token) (J : Jwks PKey)
    (pool : Pool) : Traced Nat VerifyRun :=
  jwsVerifyTraced E Prod.fst (positionTrial E crypto) (some t) (some J.walk.zipIdx) (some pool)

/-- What the trial of the key at a position answers. -/
def trialAt (E : Env PKey) (crypto : Crypto PKey) (t : Token) (J : Jwks PKey) (alg : Alg)
    (i : Nat) : Option Trial :=
  (J.keyAt i).map fun k => verifyWithKey E crypto k alg t.signingInput t.signature

/-- The trials of a verification: at increasing positions, of keys that the policy allows; the
last one is accepted and no other, or all allowed keys are tried and none is accepted.  An
internal error is reported when one of them failed and none was accepted. -/
structure Trials (E : Env PKey) (crypto : Crypto PKey) (t : Token) (J : Jwks PKey) (alg : Alg)
    (positions : List Nat) (run : VerifyRun) : Prop where
  increasing : positions.Pairwise (· < ·)
  bounded : positions.length ≤ J.nkeys
  allowed : ∀ i ∈ positions, ∃ k, J.keyAt i = some k ∧ Eligible J (tokenKid (some t)) k
  accepted : run.rc = .ok → ∃ before i, positions = before ++ [i] ∧
    trialAt E crypto t J alg i = some .accepted ∧
    ∀ j ∈ before, trialAt E crypto t J alg j ≠ some .accepted
  declined : run.rc ≠ .ok → run.rc = .declined ∧
    (∀ i k, J.keyAt i = some k → Eligible J (tokenKid (some t)) k → i ∈ positions) ∧
    ∀ i ∈ positions, trialAt E crypto t J alg i ≠ some .accepted
  internalError : run.internalError = true ↔
    run.rc ≠ .ok ∧ ∃ i ∈ positions, trialAt E crypto t J alg i = some .failed

/-- A key and its position in the walk. -/
theorem mem_walk_zipIdx {J : Jwks PKey} {c : Key PKey × Nat} :
    c ∈ J.walk.zipIdx ↔ J.keyAt c.2 = some c.1 := by
  rw [Jwks.keyAt_eq_walk, List.mem_zipIdx_iff_getElem?]

theorem trialAt_of_mem {t : Token} {J : Jwks PKey} {alg : Alg} {c : Key PKey × Nat}
    (h : c ∈ J.walk.zipIdx) : trialAt E crypto t J alg c.2 =
      some (verifyWithKey E crypto c.1 alg t.signingInput t.signature) := by
  rw [trialAt, mem_walk_zipIdx.mp h]
  rfl

/-! ### The loop over positions

The keys that the loop tries, for a test `el` that is the policy and an attempt that is a call of
the verifier. -/

section Positions

variable {t : Token} {J : Jwks PKey} {alg : Alg} {el : Key PKey × Nat → Bool}
  {attempt : Key PKey × Nat → Trial}

theorem tried_walk_sublist :
    (tried el attempt J.walk.zipIdx).Sublist J.walk.zipIdx :=
  (tried_sublist _).trans List.filter_sublist

theorem el_of_tried {c : Key PKey × Nat} (hc : c ∈ tried el attempt J.walk.zipIdx) :
    el c = true :=
  List.of_mem_filter ((tried_sublist _).subset hc)

/-- The positions are some of those of the keyset, in its order. -/
theorem positions_sublist : ((tried el attempt J.walk.zipIdx).map Prod.snd).Sublist
    (List.range' 0 J.walk.length) := by
  have h := (@tried_walk_sublist _ J el attempt).map Prod.snd
  rwa [List.zipIdx_map_snd] at h

theorem positions_increasing :
    ((tried el attempt J.walk.zipIdx).map Prod.snd).Pairwise (· < ·) :=
  List.Pairwise.sublist positions_sublist List.pairwise_lt_range'

theorem positions_bounded :
    ((tried el attempt J.walk.zipIdx).map Prod.snd).length ≤ J.nkeys := by
  have hle := (@positions_sublist _ J el attempt).length_le
  rw [List.length_range'] at hle
  refine hle.trans ?_
  rw [Jwks.walk_eq_take]
  exact List.length_take_le ..

theorem positions_allowed (hel : ∀ c, el c = true → Eligible J (tokenKid (some t)) c.1) :
    ∀ i ∈ (tried el attempt J.walk.zipIdx).map Prod.snd,
      ∃ k, J.keyAt i = some k ∧ Eligible J (tokenKid (some t)) k := by
  intro i hi
  obtain ⟨c, hc, rfl⟩ := List.mem_map.mp hi
  exact ⟨c.1, mem_walk_zipIdx.mp (tried_walk_sublist.subset hc), hel c (el_of_tried hc)⟩

theorem trialAt_of_tried
    (hattempt : ∀ c, attempt c = verifyWithKey E crypto c.1 alg t.signingInput t.signature)
    {c : Key PKey × Nat} (hc : c ∈ tried el attempt J.walk.zipIdx) :
    trialAt E crypto t J alg c.2 = some (attempt c) := by
  rw [trialAt_of_mem (tried_walk_sublist.subset hc), hattempt]

/-- One is accepted: the last that is tried. -/
theorem trials_of_accepted (hel : ∀ c, el c = true → Eligible J (tokenKid (some t)) c.1)
    (hattempt : ∀ c, attempt c = verifyWithKey E crypto c.1 alg t.signingInput t.signature)
    (h : ∃ c ∈ J.walk.zipIdx, el c = true ∧ attempt c = .accepted) :
    Trials E crypto t J alg ((tried el attempt J.walk.zipIdx).map Prod.snd) ⟨.ok, false⟩ where
  increasing := positions_increasing
  bounded := positions_bounded
  allowed := positions_allowed hel
  accepted _ := by
    obtain ⟨before, c, after, heq, -, hacc, hbefore, htried⟩ := tried_of_hit h
    refine ⟨(before.filter el).map Prod.snd, c.2, by rw [htried, List.map_append]; rfl, ?_, ?_⟩
    · rw [trialAt_of_tried hattempt (by rw [htried]; simp), hacc]
    · intro j hj
      obtain ⟨b, hb, rfl⟩ := List.mem_map.mp hj
      rw [trialAt_of_tried hattempt (by rw [htried]; exact List.mem_append_left _ hb)]
      obtain ⟨hmem, hb'⟩ := List.mem_filter.mp hb
      exact fun h => hbefore b hmem hb' (Option.some.inj h)
  declined h := absurd rfl h
  internalError := ⟨fun h => absurd h (by decide), fun h => absurd rfl h.1⟩

/-- None is accepted: all that may be tried are. -/
theorem trials_of_declined (hel : ∀ c, el c = true ↔ Eligible J (tokenKid (some t)) c.1)
    (hattempt : ∀ c, attempt c = verifyWithKey E crypto c.1 alg t.signingInput t.signature)
    (h : ∀ c ∈ J.walk.zipIdx, el c = true → attempt c ≠ .accepted) :
    Trials E crypto t J alg ((tried el attempt J.walk.zipIdx).map Prod.snd)
      ⟨.declined, (tryEach el attempt J.walk.zipIdx .start).failed⟩ where
  increasing := positions_increasing
  bounded := positions_bounded
  allowed := positions_allowed fun c => (hel c).mp
  accepted hok := Rc.noConfusion hok
  declined _ := by
    refine ⟨rfl, ?_, ?_⟩
    · intro i k hk he
      have hmem : (k, i) ∈ J.walk.zipIdx := mem_walk_zipIdx.mpr hk
      rw [tried_eq_filter h]
      exact List.mem_map.mpr ⟨(k, i), List.mem_filter.mpr ⟨hmem, (hel _).mpr he⟩, rfl⟩
    · intro i hi
      obtain ⟨c, hc, rfl⟩ := List.mem_map.mp hi
      rw [trialAt_of_tried hattempt hc]
      exact fun hacc => h c (tried_walk_sublist.subset hc) (el_of_tried hc) (Option.some.inj hacc)
  internalError := by
    rw [tryEach_failed]
    simp only [Report.start, Bool.false_or, List.any_eq_true, beq_iff_eq, ne_eq, List.mem_map]
    constructor
    · rintro ⟨c, hc, hf⟩
      exact ⟨Rc.noConfusion, c.2, ⟨c, hc, rfl⟩, by rw [trialAt_of_tried hattempt hc, hf]⟩
    · rintro ⟨-, i, ⟨c, hc, rfl⟩, hf⟩
      rw [trialAt_of_tried hattempt hc] at hf
      exact ⟨c, hc, Option.some.inj hf⟩

/-- The loop over positions makes such trials. -/
theorem trials_of_tried (hel : ∀ c, el c = true ↔ Eligible J (tokenKid (some t)) c.1)
    (hattempt : ∀ c, attempt c = verifyWithKey E crypto c.1 alg t.signingInput t.signature)
    {run : VerifyRun} (hrc : run = if (tryEach el attempt J.walk.zipIdx .start).hit then
      ⟨.ok, false⟩ else ⟨.declined, (tryEach el attempt J.walk.zipIdx .start).failed⟩) :
    Trials E crypto t J alg ((tried el attempt J.walk.zipIdx).map Prod.snd) run := by
  have hhit : (tryEach el attempt J.walk.zipIdx .start).hit = true ↔
      ∃ c ∈ J.walk.zipIdx, el c = true ∧ attempt c = .accepted := tryEach_start_hit_iff _
  by_cases hh : (tryEach el attempt J.walk.zipIdx .start).hit = true
  · rw [if_pos hh] at hrc
    rw [hrc]
    exact trials_of_accepted (fun c => (hel c).mp) hattempt (hhit.mp hh)
  · rw [if_neg hh] at hrc
    rw [hrc]
    exact trials_of_declined hel hattempt fun c hc he ha => hh (hhit.mpr ⟨c, hc, he, ha⟩)

end Positions

/-- **The trials of a verification.**  `nxe_jwx_jws_verify` calls `nxe_jwx_verify_with_key` on each
key at most once, in the order of the keyset, and only on keys that the policy allows; it stops at
the first that is accepted and declines only when all of them were tried.  A token that fails the
checks before is not tried against any key.  A key that is tried may still be incompatible with the
algorithm, in which case the primitive is not run. -/
theorem verification_trials (E : Env PKey) (crypto : Crypto PKey) (t : Token) (J : Jwks PKey)
    (pool : Pool) :
    (verifyPositions E crypto t J pool).val =
        jwsVerifyRun E crypto (some t) (some J) (some pool) ∧
      match checkedAlg E t with
      | none => (verifyPositions E crypto t J pool).events = [] ∧
        (verifyPositions E crypto t J pool).val = ⟨.declined, false⟩
      | some alg => Trials E crypto t J alg (verifyPositions E crypto t J pool).events
        (verifyPositions E crypto t J pool).val := by
  refine ⟨val_jwsVerifyTraced (fun c alg msg sig => rfl) _ (by simp) _, ?_⟩
  unfold verifyPositions
  rw [jwsVerifyTraced_eq]
  cases checkedAlg E t with
  | none => exact ⟨rfl, rfl⟩
  | some alg =>
    dsimp only
    obtain ⟨hhit, hfailed, hevents⟩ := passesTraced_eq Prod.fst
      (fun c => positionTrial E crypto c alg t.signingInput t.signature)
      (tokenKid_ne_some_nil t) J.walk.zipIdx
    have hpos : ∀ cs : List (Key PKey × Nat), (cs.flatMap fun c =>
        (positionTrial E crypto c alg t.signingInput t.signature).events) = cs.map Prod.snd :=
      fun cs => List.map_eq_flatMap.symm
    rw [hpos] at hevents
    have hwalk : J.walk = J.walk.zipIdx.map Prod.fst := (List.zipIdx_map_fst ..).symm
    simp only [ite_pure]
    rw [val_bind, events_bind, val_pure, events_pure, List.append_nil, hevents, hhit, hfailed]
    exact trials_of_tried (fun c => allowed_iff hwalk c) (fun c => rfl) rfl

end NxeJwx
