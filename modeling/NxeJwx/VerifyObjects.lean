/-
# The OpenSSL objects of a verification

`nxe_jwx_ecdsa_raw_to_der`, `nxe_jwx_evp_verify` and `nxe_jwx_hmac_verify` with the objects they
make: two big numbers that `ECDSA_SIG_set0` hands over to the signature object, a digest context,
and the MAC on the stack, which counts as made when `HMAC` has filled it and as freed when it is
cleansed.  The DER encoding of a signature is memory of the pool, and no object here.  Each call of
OpenSSL in a trial may fail, in that trial alone; so may the allocation from the pool.

Every function keeps the books in balance (`balanced_verifyWithKey`), and a step that fails can only
keep a key from accepting (`val_verifyWithKeyObjects`).  So whatever fails in a verification, each
object is freed exactly once, and a signature is accepted only if it is accepted when nothing fails
(`verification_objects`).
-/
import NxeJwx.Lib.Objects
import NxeJwx.VerifyTrace

namespace NxeJwx

open Ledger Objects SharedTail TryEach Traced

variable {PKey : Type}

/-! ## 1. The code -/

/-- The steps of a verification with one key that can fail although they succeed with the next. -/
inductive VerifyStep where
  | bnR
  | bnS
  | ecdsaSig
  | set0
  | derLength
  | derBuf
  | derWrite
  | digest
  | context
  | verifyInit
  | pssPadding
  | pssSaltlen
  | pssMgf1
  | digestVerify
  | mac
  deriving DecidableEq, Repr

/-- Which of these steps fail. -/
abbrev VerifyFaults := VerifyStep → Bool

/-- The pointers of `nxe_jwx_ecdsa_raw_to_der`. -/
inductive DerVar where
  | r
  | s
  | sig
  deriving DecidableEq, Repr

/-- `nxe_jwx_ecdsa_raw_to_der`, before its label. -/
def ecdsaRawToDerBody (O : Ossl PKey) (f : VerifyFaults) (raw : Bytes) (coordLen : Nat) :
    Code DerVar (Ret Bytes) PUnit :=
  if raw.length ≠ coordLen * 2 then .ret .declined
  else do
    let r := BigEndian.ofBytes (raw.take coordLen)
    let s := BigEndian.ofBytes ((raw.drop coordLen).take coordLen)
    new .r (f .bnR)
    new .s (f .bnS)
    orJump .r .error
    orJump .s .error
    new .sig (f .ecdsaSig)
    orJump .sig .error
    -- `ECDSA_SIG_set0` takes both numbers when it succeeds
    jumpIf (f .set0) .error
    give .r .sig
    give .s .sig
    clear .r
    clear .s
    match (if f .derLength then none else O.i2dEcdsaSig r s) with
    | none => .jump .error
    | some der => do
      jumpIf (decide (der.length = 0)) .error
      jumpIf (f .derBuf) .error
      jumpIf (f .derWrite) .error
      -- `rc = NGX_OK`, and into the label
      .jump (.ok der)

/-- `nxe_jwx_ecdsa_raw_to_der`. -/
def ecdsaRawToDerObjects (O : Ossl PKey) (f : VerifyFaults) (raw : Bytes) (coordLen : Nat) :
    Books → Done (Ret Bytes) :=
  withLabel [.r, .s, .sig] none none id (·.getD .error) (ecdsaRawToDerBody O f raw coordLen)

/-- The three PSS setters: the first that fails ends the call. -/
def pssParamsOrFault (O : Ossl PKey) (f : VerifyFaults) (pkey : PKey) (digest : Option Digest)
    (c : SigParams) : Option SigParams :=
  if f .pssPadding || f .pssSaltlen || f .pssMgf1 then none else pssParams O pkey digest c

/-- `nxe_jwx_evp_verify`, when the context is there: each way out frees it. -/
def evpVerifyWithContext (O : Ossl PKey) (f : VerifyFaults) (pkey : Option PKey)
    (digest : Option Digest) (signingInput signature : Bytes) (pss : Bool) :
    Code PUnit Trial PUnit :=
  match (if f .verifyInit then none else pkey.bind fun p => O.digestVerifyInit p digest) with
  | none => do
    free ⟨⟩
    .ret .failed
  | some fresh =>
    match (if pss then pkey.bind fun p => pssParamsOrFault O f p digest fresh
        else some fresh) with
    | none => do
      free ⟨⟩
      .ret .failed
    | some c => do
      let rc := if f .digestVerify then -1
        else (pkey.map fun p => O.digestVerify p digest c signature signingInput).getD (-1)
      free ⟨⟩
      -- a failure of the call is taken for a signature that does not match
      .ret (if rc = 1 then .accepted else .rejected)

/-- The code of `nxe_jwx_evp_verify`. -/
def evpVerifyBody (O : Ossl PKey) (f : VerifyFaults) (pkey : Option PKey)
    (digest : Option Digest) (signingInput signature : Bytes) (pss : Bool) :
    Code PUnit Trial PUnit :=
  if digest.any fun md => f .digest || !O.digestByName md then .ret .failed
  else do
    new ⟨⟩ (f .context)
    orRet ⟨⟩ .failed
    evpVerifyWithContext O f pkey digest signingInput signature pss

/-- `nxe_jwx_evp_verify`. -/
def evpVerifyObjects (O : Ossl PKey) (f : VerifyFaults) (pkey : Option PKey)
    (digest : Option Digest) (signingInput signature : Bytes) (pss : Bool) : Books → Done Trial :=
  withLabel [] none none id (·.getD .failed)
    (evpVerifyBody O f pkey digest signingInput signature pss)

/-- The code of `nxe_jwx_hmac_verify`.  `HMAC` fills the buffer on the stack, and every way out
after that cleanses it. -/
def hmacVerifyBody (O : Ossl PKey) (f : VerifyFaults) (secret : Bytes) (digest : Option Digest)
    (signingInput signature : Bytes) : Code PUnit Trial PUnit :=
  match digest with
  | none => .ret .failed
  | some md =>
    if f .digest || !O.digestByName md then .ret .failed
    else
      match (if f .mac then none else O.hmac md secret signingInput) with
      | none => .ret .failed
      | some mac => do
        new ⟨⟩ false
        if signature.length ≠ mac.length then
          free ⟨⟩
          .ret .rejected
        else if mac ≠ signature then
          free ⟨⟩
          .ret .rejected
        else
          free ⟨⟩
          .ret .accepted

/-- `nxe_jwx_hmac_verify`. -/
def hmacVerifyObjects (O : Ossl PKey) (f : VerifyFaults) (secret : Bytes)
    (digest : Option Digest) (signingInput signature : Bytes) : Books → Done Trial :=
  withLabel [] none none id (·.getD .failed)
    (hmacVerifyBody O f secret digest signingInput signature)

/-- The ECDSA case of `nxe_jwx_verify_with_key`. -/
def ecdsaVerifyBody (O : Ossl PKey) (f : VerifyFaults) (pkey : Option PKey) (alg : Alg)
    (signingInput signature : Bytes) : Code PUnit Trial PUnit := do
  match ← visit (ecdsaRawToDerObjects O f signature alg.ecCoordLen) with
  | .declined => .ret .rejected
  | .error => .ret .failed
  | .ok der =>
    let trial ← visit (evpVerifyObjects O f pkey alg.digest signingInput der false)
    .ret trial

/-- The switch of `nxe_jwx_verify_with_key`. -/
def primitiveObjects (E : Env PKey) (f : VerifyFaults) (k : Key PKey) (alg : Alg)
    (signingInput signature : Bytes) : Books → Done Trial :=
  match alg.family with
  | .rsa => evpVerifyObjects E.ossl f k.pkey alg.digest signingInput signature false
  | .rsaPss => evpVerifyObjects E.ossl f k.pkey alg.digest signingInput signature true
  | .ecdsa => withLabel [] none none id (·.getD .failed)
    (ecdsaVerifyBody E.ossl f k.pkey alg signingInput signature)
  | .eddsa => evpVerifyObjects E.ossl f k.pkey none signingInput signature false
  | .hmac =>
    if E.haveHmac then hmacVerifyObjects E.ossl f k.hmacSecret alg.digest signingInput signature
    else fun B => ⟨.failed, none, B⟩

/-- `nxe_jwx_verify_with_key`. -/
def verifyWithKeyObjects (E : Env PKey) (f : VerifyFaults) (k : Key PKey) (alg : Alg)
    (signingInput signature : Bytes) : Books → Done Trial :=
  if !keyCompatible E.ossl k alg then fun B => ⟨.rejected, none, B⟩
  else primitiveObjects E f k alg signingInput signature

/-- `nxe_jwx_jwks_verify_raw_with_key`. -/
def verifyRawWithKeyObjects (E : Env PKey) (f : VerifyFaults) (k : Key PKey)
    (algStr : Option Bytes) (msg sig : Bytes) (B : Books) : Done Rc :=
  match resolveAlg E k algStr with
  | none => ⟨.declined, none, B⟩
  | some alg =>
    let d := verifyWithKeyObjects E f k alg msg sig B
    ⟨match d.val with
      | .accepted => .ok
      | _ => .declined, none, d.books⟩

/-- A function that is run on the key at a position, which names the objects it makes. -/
def atPosition {α : Type} (g : Key PKey → VerifyFaults → Books → Done α)
    (F : Nat → VerifyFaults) (c : Key PKey × Nat) : Traced (Entry (Nat × Nat)) α :=
  let d := g c.1 (F c.2) .empty
  ⟨d.val, d.books.log.map (Entry.map (Prod.mk c.2))⟩

/-- `nxe_jwx_jws_verify`; the trial at a position has the faults of the position. -/
def jwsVerifyObjects (E : Env PKey) (F : Nat → VerifyFaults) (token : Option Token)
    (J : Jwks PKey) (pool : Option Pool) : Traced (Entry (Nat × Nat)) VerifyRun :=
  jwsVerifyTraced E Prod.fst
    (fun c alg msg sig => atPosition (fun k f => verifyWithKeyObjects E f k alg msg sig) F c)
    token (some J.walk.zipIdx) pool

/-- The detached verification with the key at a position. -/
def rawAtPosition (E : Env PKey) (F : Nat → VerifyFaults) (c : Key PKey × Nat)
    (algStr : Option Bytes) (msg sig : Bytes) : Traced (Entry (Nat × Nat)) Rc :=
  atPosition (fun k f => verifyRawWithKeyObjects E f k algStr msg sig) F c

/-- `nxe_jwx_jwks_verify_raw`. -/
def jwksVerifyRawObjects (E : Env PKey) (F : Nat → VerifyFaults) (J : Jwks PKey)
    (keyid algStr msg sig : Option Bytes) (pool : Option Pool) : Traced (Entry (Nat × Nat)) Rc :=
  jwksVerifyRawTraced Prod.fst (rawAtPosition E F) (some J.walk.zipIdx) keyid algStr msg sig pool

/-- `nxe_jwx_jwks_verify_raw_by_kid`. -/
def jwksVerifyRawByKidObjects (E : Env PKey) (F : Nat → VerifyFaults) (J : Jwks PKey)
    (kid algStr msg sig : Option Bytes) (pool : Option Pool) : Traced (Entry (Nat × Nat)) Rc :=
  jwksVerifyRawByKidTraced Prod.fst (rawAtPosition E F) (some J.walk.zipIdx) kid algStr msg sig
    pool

/-! ## 2. The books balance -/

variable {O : Ossl PKey} {f : VerifyFaults}

theorem balanced_ecdsaRawToDer (raw : Bytes) (coordLen : Nat) :
    Balanced (ecdsaRawToDerObjects O f raw coordLen) := by
  refine balanced_withLabel (by decide) fun outer => ?_
  have hall : ∀ {vs ys : List DerVar} {s : Frame DerVar}, At outer vs [] ys s →
      Held outer ([.r, .s, .sig] ++ (none : Option DerVar).toList) s :=
    fun h => h.held (fun x _ => by cases x <;> decide) fun _ hx => absurd hx List.not_mem_nil
  unfold ecdsaRawToDerBody
  split
  · exact Triple.leave fun s h => h.returned
  refine Triple.bind (triple_new (by decide) (by decide)) fun _ => ?_
  refine Triple.bind (triple_new (by decide) (by decide)) fun _ => ?_
  refine Triple.bind (triple_orJump fun s h => hall h) fun _ => ?_
  refine Triple.bind (triple_orJump fun s h => hall h) fun _ => ?_
  refine Triple.bind (triple_new (by decide) (by decide)) fun _ => ?_
  refine Triple.bind (triple_orJump fun s h => hall h) fun _ => ?_
  refine Triple.bind (triple_jumpIf fun s h => hall h) fun _ => ?_
  -- both numbers go to the signature object, and their pointers are cleared
  refine Triple.bind (triple_give (by decide) (by decide) (by decide) (by decide)) fun _ => ?_
  refine Triple.bind (triple_give (by decide) (by decide) (by decide) (by decide)) fun _ => ?_
  refine Triple.bind (triple_clear [.s] [] (by decide) (by decide)
    (by decide)) fun _ => ?_
  refine Triple.bind (triple_clear [] [] (by decide) (by decide)
    (by decide)) fun _ => ?_
  split
  · exact Triple.goto fun s h => hall h
  · refine Triple.bind (triple_jumpIf fun s h => hall h) fun _ => ?_
    refine Triple.bind (triple_jumpIf fun s h => hall h) fun _ => ?_
    refine Triple.bind (triple_jumpIf fun s h => hall h) fun _ => ?_
    exact Triple.goto fun s h => hall h

theorem balanced_evpVerify (pkey : Option PKey) (digest : Option Digest) (msg sig : Bytes)
    (pss : Bool) : Balanced (evpVerifyObjects O f pkey digest msg sig pss) := by
  refine balanced_withLabel (by decide) fun outer => ?_
  unfold evpVerifyBody
  split
  · exact Triple.leave fun s h => h.returned
  refine Triple.bind (triple_new (by decide) (by decide)) fun _ => ?_
  refine Triple.bind (triple_orRet fun s h hnull => ?_) fun _ => ?_
  · exact h.dropNull List.mem_cons_self hnull
  unfold evpVerifyWithContext
  split
  · exact triple_freeRet
  split
  · exact triple_freeRet
  · exact triple_freeRet

theorem balanced_hmacVerify (secret : Bytes) (digest : Option Digest) (msg sig : Bytes) :
    Balanced (hmacVerifyObjects O f secret digest msg sig) := by
  refine balanced_withLabel (by decide) fun outer => ?_
  unfold hmacVerifyBody
  split
  · exact Triple.leave fun s h => h.returned
  split
  · exact Triple.leave fun s h => h.returned
  split
  · exact Triple.leave fun s h => h.returned
  refine Triple.bind (triple_new (by decide) (by decide)) fun _ => ?_
  split
  · exact triple_freeRet
  split
  · exact triple_freeRet
  · exact triple_freeRet

variable {E : Env PKey}

theorem balanced_primitive (k : Key PKey) (alg : Alg) (msg sig : Bytes) :
    Balanced (primitiveObjects E f k alg msg sig) := by
  unfold primitiveObjects
  cases alg.family with
  | rsa | rsaPss | eddsa => exact balanced_evpVerify ..
  | ecdsa =>
    refine balanced_withLabel (by decide) fun outer => ?_
    unfold ecdsaVerifyBody
    refine Triple.bind (triple_visit (balanced_ecdsaRawToDer ..) fun B =>
      handed_withLabel ..) fun der => ?_
    cases der with
    | declined => exact Triple.leave fun s h => h.returned
    | error => exact Triple.leave fun s h => h.returned
    | ok der =>
      refine Triple.bind (triple_visit (balanced_evpVerify ..) fun B => ?_) fun trial => ?_
      · exact handed_withLabel ..
      exact Triple.leave fun s h => h.returned
  | hmac =>
    dsimp only
    split
    · exact balanced_hmacVerify ..
    · exact ⟨fun B ns h => h⟩

theorem balanced_verifyWithKey (k : Key PKey) (alg : Alg) (msg sig : Bytes) :
    Balanced (verifyWithKeyObjects E f k alg msg sig) := by
  unfold verifyWithKeyObjects
  split
  · exact ⟨fun B ns h => h⟩
  · exact balanced_primitive ..

theorem handed_verifyWithKey (k : Key PKey) (alg : Alg) (msg sig : Bytes) (B : Books) :
    (verifyWithKeyObjects E f k alg msg sig B).handed = none := by
  unfold verifyWithKeyObjects
  split
  · rfl
  unfold primitiveObjects
  cases alg.family with
  | rsa | rsaPss | ecdsa | eddsa => exact handed_withLabel ..
  | hmac =>
    dsimp only
    split
    · exact handed_withLabel ..
    · rfl

/-! ## 3. The results -/

theorem val_ecdsaRawToDerObjects (raw : Bytes) (coordLen : Nat) (B : Books) :
    (ecdsaRawToDerObjects O f raw coordLen B).val = ecdsaRawToDer O raw coordLen ∨
      (ecdsaRawToDerObjects O f raw coordLen B).val = .error ∧ ∃ step, f step = true := by
  rw [ecdsaRawToDerObjects, val_withLabel]
  unfold ecdsaRawToDerBody ecdsaRawToDer
  split
  · exact .inl rfl
  simp only [run_new, run_orJump, run_jumpIf, run_give, run_clear, isNone_make_same,
    var_make_other (show DerVar.r ≠ DerVar.s by decide)]
  have hfail : ∀ {step} {x : Ret Bytes}, f step = true → (.error : Ret Bytes) = x ∨
      (.error : Ret Bytes) = .error ∧ ∃ step, f step = true := fun h => .inr ⟨rfl, _, h⟩
  split
  next h => exact hfail h
  split
  next h => exact hfail h
  split
  next h => exact hfail h
  split
  next h => exact hfail h
  by_cases hlength : f .derLength = true
  · rw [if_pos hlength]
    exact hfail hlength
  rw [if_neg hlength]
  cases O.i2dEcdsaSig _ _ with
  | none => exact .inl rfl
  | some der =>
    simp only [run_jumpIf, decide_eq_true_eq]
    split
    · exact .inl rfl
    split
    next h => exact hfail h
    split
    next h => exact hfail h
    exact .inl rfl

/-- A trial in which steps may fail: it answers what it answers when none does, or a step has failed
and the key does not accept. -/
def SpoiltBy (f : VerifyFaults) (plain got : Trial) : Prop :=
  got = plain ∨ got ≠ .accepted ∧ ∃ step, f step = true

theorem SpoiltBy.failed {step : VerifyStep} {plain : Trial} (h : f step = true) :
    SpoiltBy f plain .failed := .inr ⟨by decide, step, h⟩

/-- A setter that fails ends the call, as if OpenSSL had refused the parameters. -/
theorem pssParamsOrFault_cases (p : PKey) (digest : Option Digest) (c : SigParams) (pss : Bool) :
    (if pss then pssParamsOrFault O f p digest c else some c) =
        (if pss then pssParams O p digest c else some c) ∨
      (if pss then pssParamsOrFault O f p digest c else some c) = none ∧
        ∃ step, f step = true := by
  cases pss with
  | false => exact .inl rfl
  | true =>
    by_cases hsetters : (f .pssPadding || f .pssSaltlen || f .pssMgf1) = true
    · refine .inr ⟨if_pos hsetters, ?_⟩
      simp only [Bool.or_eq_true] at hsetters
      rcases hsetters with (h | h) | h
      · exact ⟨_, h⟩
      · exact ⟨_, h⟩
      · exact ⟨_, h⟩
    · exact .inl (if_neg hsetters)

theorem val_evpVerifyObjects (pkey : Option PKey) (digest : Option Digest) (msg sig : Bytes)
    (pss : Bool) (B : Books) : SpoiltBy f (evpVerify O pkey digest msg sig pss)
      (evpVerifyObjects O f pkey digest msg sig pss B).val := by
  rw [evpVerifyObjects, val_withLabel]
  unfold evpVerifyBody evpVerify
  have hdigest : (digest.any fun md => f .digest || !O.digestByName md) =
      (digest.isSome && f .digest || !digest.all O.digestByName) := by
    cases digest <;> rfl
  rw [hdigest]
  by_cases hlookup : (digest.isSome && f .digest) = true
  · rw [hlookup, Bool.true_or, if_pos rfl]
    exact .failed (Bool.and_eq_true_iff.mp hlookup).2
  rw [(Bool.not_eq_true _).mp hlookup, Bool.false_or]
  split
  · exact .inl rfl
  rw [run_new, run_orRet, isNone_make_same]
  by_cases hcontext : f .context = true
  · rw [if_pos hcontext]
    exact .failed hcontext
  rw [if_neg hcontext]
  unfold evpVerifyWithContext
  by_cases hinit : f .verifyInit = true
  · rw [if_pos hinit]
    exact .failed hinit
  rw [if_neg hinit]
  cases pkey with
  | none => exact .inl rfl
  | some p =>
    simp only [Option.bind_some, Option.map_some, Option.getD_some]
    cases O.digestVerifyInit p digest with
    | none => exact .inl rfl
    | some fresh =>
      dsimp only
      rcases pssParamsOrFault_cases (O := O) (f := f) p digest fresh pss with h | ⟨h, step, hstep⟩
      · rw [h]
        cases (if pss then pssParams O p digest fresh else some fresh) with
        | none => exact .inl rfl
        | some c =>
          by_cases hverify : f .digestVerify = true
          · exact .inr ⟨by simp [hverify], _, hverify⟩
          · exact .inl (by simp [hverify])
      · rw [h]
        exact .failed hstep

theorem val_hmacVerifyObjects (secret : Bytes) (digest : Option Digest) (msg sig : Bytes)
    (B : Books) : SpoiltBy f (hmacVerify O secret digest msg sig)
      (hmacVerifyObjects O f secret digest msg sig B).val := by
  rw [hmacVerifyObjects, val_withLabel]
  unfold hmacVerifyBody hmacVerify
  cases digest with
  | none => exact .inl rfl
  | some md =>
    dsimp only
    by_cases hlookup : f .digest = true
    · rw [hlookup, Bool.true_or, if_pos rfl]
      exact .failed hlookup
    rw [(Bool.not_eq_true _).mp hlookup, Bool.false_or]
    split
    · exact .inl rfl
    by_cases hmac : f .mac = true
    · rw [if_pos hmac]
      exact .failed hmac
    rw [if_neg hmac]
    cases O.hmac md secret msg with
    | none => exact .inl rfl
    | some mac =>
      simp only [run_new]
      split
      · exact .inl rfl
      split <;> exact .inl rfl

/-- A step that fails keeps the key from accepting, and changes nothing else. -/
theorem val_verifyWithKeyObjects (k : Key PKey) (alg : Alg) (msg sig : Bytes) (B : Books) :
    SpoiltBy f (verifyWithKey E (primitive E) k alg msg sig)
      (verifyWithKeyObjects E f k alg msg sig B).val := by
  unfold verifyWithKeyObjects verifyWithKey
  split
  · exact .inl rfl
  unfold primitiveObjects primitive
  cases alg.family with
  | rsa | rsaPss | eddsa => exact val_evpVerifyObjects ..
  | ecdsa =>
    dsimp only
    rw [val_withLabel, ecdsaVerifyBody, run_visit]
    rcases val_ecdsaRawToDerObjects sig alg.ecCoordLen (O := E.ossl) (f := f)
      (Frame.enter PUnit B).books with h | ⟨h, step, hstep⟩
    · rw [h]
      cases ecdsaRawToDer E.ossl sig alg.ecCoordLen with
      | declined => exact .inl rfl
      | error => exact .inl rfl
      | ok der => exact val_evpVerifyObjects ..
    · rw [h]
      exact .failed hstep
  | hmac =>
    dsimp only
    split
    · exact val_hmacVerifyObjects ..
    · exact .inl rfl

/-! ## 4. Whole verifications -/

/-- What one verification with a key leaves on its books. -/
theorem holds_verifyWithKey (f : VerifyFaults) (k : Key PKey) (alg : Alg) (msg sig : Bytes) :
    Holds (verifyWithKeyObjects E f k alg msg sig .empty).books.log [] := by
  have hbalanced : Balanced (verifyWithKeyObjects E f k alg msg sig) :=
    balanced_verifyWithKey k alg msg sig
  have hsound := hbalanced.keeps .empty [] sound_empty
  rw [handed_verifyWithKey] at hsound
  exact hsound.holds

theorem holds_verifyRawWithKey (f : VerifyFaults) (k : Key PKey) (algStr : Option Bytes)
    (msg sig : Bytes) :
    Holds (verifyRawWithKeyObjects E f k algStr msg sig .empty).books.log [] := by
  unfold verifyRawWithKeyObjects
  cases resolveAlg E k algStr with
  | none => exact holds_nil
  | some alg => exact holds_verifyWithKey f k alg msg sig

/-- The events are those of functions run at some of the positions, at most once at each. -/
def AtPositions (J : Jwks PKey) (events : List (Entry (Nat × Nat))) : Prop :=
  ∃ (cs : List (Key PKey × Nat)) (log : Key PKey × Nat → List (Entry Nat)),
    cs.Sublist J.walk.zipIdx ∧ (∀ c, Holds (log c) []) ∧
    events = cs.flatMap fun c => (log c).map (Entry.map (Prod.mk c.2))

theorem AtPositions.intro {J : Jwks PKey} {cs : List (Key PKey × Nat)}
    {events : List (Entry (Nat × Nat))} (log : Key PKey × Nat → List (Entry Nat))
    (hevents : events = cs.flatMap fun c => (log c).map (Entry.map (Prod.mk c.2)))
    (hsub : cs.Sublist J.walk.zipIdx) (hlog : ∀ c, Holds (log c) []) : AtPositions J events :=
  ⟨cs, log, hsub, hlog, hevents⟩

theorem atPositions_nil (J : Jwks PKey) : AtPositions J [] :=
  .intro (fun _ => []) rfl (List.nil_sublist _) fun _ => holds_nil

/-- Everything that was made at some position is freed once. -/
theorem AtPositions.settled {J : Jwks PKey} {events : List (Entry (Nat × Nat))}
    (h : AtPositions J events) (o : Nat × Nat) : Settled o events := by
  obtain ⟨cs, log, hsub, hlog, rfl⟩ := h
  refine settled_parts ?_ (fun c _ => hlog c) o
  refine (hsub.map Prod.snd).nodup ?_
  rw [List.zipIdx_map_snd]
  exact List.nodup_range'

variable {F : Nat → VerifyFaults} {J : Jwks PKey}

theorem atPositions_jwsVerify (token : Option Token) (pool : Option Pool) :
    AtPositions J (jwsVerifyObjects E F token J pool).events := by
  unfold jwsVerifyObjects
  match token, pool with
  | none, _ => exact atPositions_nil J
  | some _, none => exact atPositions_nil J
  | some t, some pool =>
    rw [jwsVerifyTraced_eq]
    cases checkedAlg E t with
    | none => exact atPositions_nil J
    | some alg =>
      dsimp only
      simp only [ite_pure]
      rw [events_bind, events_pure, List.append_nil,
        (passesTraced_eq Prod.fst _ (tokenKid_ne_some_nil t) J.walk.zipIdx).2.2]
      exact .intro (fun c => (verifyWithKeyObjects E (F c.2) c.1 alg t.signingInput t.signature
        .empty).books.log) rfl ((tried_sublist _).trans List.filter_sublist)
        fun c => holds_verifyWithKey ..

theorem atPositions_jwksVerifyRaw (keyid algStr msg sig : Option Bytes) (pool : Option Pool) :
    AtPositions J (jwksVerifyRawObjects E F J keyid algStr msg sig pool).events := by
  unfold jwksVerifyRawObjects jwksVerifyRawTraced
  match keyid, msg, sig, pool with
  | none, _, _, _ => exact atPositions_nil J
  | some _, none, _, _ => exact atPositions_nil J
  | some _, some _, none, _ => exact atPositions_nil J
  | some _, some _, some _, none => exact atPositions_nil J
  | some keyid, some msg, some sig, some pool =>
    dsimp only
    split
    · exact atPositions_nil J
    split
    · exact atPositions_nil J
    split
    · exact atPositions_nil J
    next c hfind =>
      exact ⟨[c], fun c => (verifyRawWithKeyObjects E (F c.2) c.1 algStr msg sig .empty).books.log,
        List.singleton_sublist.mpr (List.mem_of_find?_eq_some hfind),
        fun c => holds_verifyRawWithKey .., (List.flatMap_singleton ..).symm⟩

theorem atPositions_jwksVerifyRawByKid (kid algStr msg sig : Option Bytes)
    (pool : Option Pool) :
    AtPositions J (jwksVerifyRawByKidObjects E F J kid algStr msg sig pool).events := by
  unfold jwksVerifyRawByKidObjects jwksVerifyRawByKidTraced
  match kid, msg, sig, pool with
  | none, _, _, _ => exact atPositions_nil J
  | some _, none, _, _ => exact atPositions_nil J
  | some _, some _, none, _ => exact atPositions_nil J
  | some _, some _, some _, none => exact atPositions_nil J
  | some kid, some msg, some sig, some pool =>
    dsimp only
    split
    · exact atPositions_nil J
    simp only [ite_pure]
    rw [events_bind, events_pure, List.append_nil, events_tryEachTraced]
    have htrial : ∀ c, (rawTrialTraced (rawAtPosition E F) algStr msg sig c).events =
        (rawAtPosition E F c algStr msg sig).events := by
      intro c
      rw [rawTrialTraced, events_bind]
      cases (rawAtPosition E F c algStr msg sig).val <;> exact List.append_nil _
    simp only [htrial]
    exact .intro (fun c => (verifyRawWithKeyObjects E (F c.2) c.1 algStr msg sig .empty).books.log)
      rfl ((tried_sublist _).trans List.filter_sublist) fun c => holds_verifyRawWithKey ..

/-! ## 5. Failing closed -/

theorem val_objects_eq (hnone : ∀ i step, F i step = false) (c : Key PKey × Nat) (alg : Alg)
    (msg sig : Bytes) :
    (atPosition (fun k f => verifyWithKeyObjects E f k alg msg sig) F c).val =
      verifyWithKey E (primitive E) c.1 alg msg sig := by
  rcases val_verifyWithKeyObjects (f := F c.2) c.1 alg msg sig .empty with h | ⟨-, step, hstep⟩
  · exact h
  · rw [hnone] at hstep
    exact Bool.noConfusion hstep

theorem accepted_objects {c : Key PKey × Nat} {alg : Alg} {msg sig : Bytes}
    (h : (atPosition (fun k f => verifyWithKeyObjects E f k alg msg sig) F c).val = .accepted) :
    verifyWithKey E (primitive E) c.1 alg msg sig = .accepted := by
  rcases val_verifyWithKeyObjects (f := F c.2) c.1 alg msg sig .empty with heq | ⟨hfailed, -⟩
  · exact heq.symm.trans h
  · exact absurd h hfailed

/-- The same for a detached verification. -/
theorem val_rawObjects (c : Key PKey × Nat) (algStr : Option Bytes) (msg sig : Bytes) :
    (rawAtPosition E F c algStr msg sig).val =
        verifyRawWithKey E (primitive E) c.1 algStr msg sig ∨
      (rawAtPosition E F c algStr msg sig).val = .declined ∧ ∃ step, F c.2 step = true := by
  show (verifyRawWithKeyObjects E (F c.2) c.1 algStr msg sig .empty).val = _ ∨
    (verifyRawWithKeyObjects E (F c.2) c.1 algStr msg sig .empty).val = _ ∧ _
  unfold verifyRawWithKeyObjects verifyRawWithKey
  cases resolveAlg E c.1 algStr with
  | none => exact .inl rfl
  | some alg =>
    rcases val_verifyWithKeyObjects (E := E) (f := F c.2) c.1 alg msg sig .empty with h | ⟨h, hstep⟩
    · refine .inl ?_
      cases hv : verifyWithKey E (primitive E) c.1 alg msg sig <;> simp only [h, hv]
    · refine .inr ⟨?_, hstep⟩
      dsimp only
      split
      next hacc => exact absurd hacc h
      · rfl

theorem val_rawObjects_eq (hnone : ∀ i step, F i step = false) (c : Key PKey × Nat)
    (algStr : Option Bytes) (msg sig : Bytes) :
    (rawAtPosition E F c algStr msg sig).val =
      verifyRawWithKey E (primitive E) c.1 algStr msg sig := by
  rcases val_rawObjects (E := E) (F := F) c algStr msg sig with h | ⟨-, step, hstep⟩
  · exact h
  · rw [hnone] at hstep
    exact Bool.noConfusion hstep

/-- A verification that accepts, accepts when nothing fails. -/
theorem jwsVerify_of_objects {token : Option Token} {pool : Option Pool}
    (h : (jwsVerifyObjects E F token J pool).val.rc = .ok) :
    jwsVerify E (primitive E) token (some J) pool = .ok := by
  have hwalk : J.walk = J.walk.zipIdx.map Prod.fst := (List.zipIdx_map_fst ..).symm
  let plain : Key PKey × Nat → Alg → Bytes → Bytes → Traced (Entry (Nat × Nat)) Trial :=
    fun c alg msg sig => pure (verifyWithKey E (primitive E) c.1 alg msg sig)
  have hplain : (jwsVerifyTraced E Prod.fst plain token (some J.walk.zipIdx) pool).val =
      jwsVerifyRun E (primitive E) token (some J) pool :=
    val_jwsVerifyTraced (fun c alg msg sig => rfl) token hwalk pool
  rw [jwsVerify, ← hplain]
  cases token with
  | none => exact Rc.noConfusion h
  | some t =>
  cases pool with
  | none => exact Rc.noConfusion h
  | some pool =>
    rw [jwsVerifyObjects, jwsVerifyTraced_eq] at h
    rw [jwsVerifyTraced_eq]
    cases hchecked : checkedAlg E t with
    | none =>
      rw [hchecked] at h
      exact Rc.noConfusion h
    | some alg =>
      rw [hchecked] at h
      simp only [ite_pure, val_bind, val_pure] at h ⊢
      rw [(passesTraced_eq Prod.fst _ (tokenKid_ne_some_nil t) J.walk.zipIdx).1] at h ⊢
      split at h
      next hhit =>
        obtain ⟨c, hc, hallowed, hacc⟩ := (tryEach_start_hit_iff _).mp hhit
        rw [if_pos ((tryEach_start_hit_iff _).mpr ⟨c, hc, hallowed, accepted_objects hacc⟩)]
      · exact Rc.noConfusion h

theorem jwksVerifyRaw_of_objects {keyid algStr msg sig : Option Bytes} {pool : Option Pool}
    (h : (jwksVerifyRawObjects E F J keyid algStr msg sig pool).val = .ok) :
    jwksVerifyRaw E (primitive E) (some J) keyid algStr msg sig pool = .ok := by
  have hwalk : J.walk = J.walk.zipIdx.map Prod.fst := (List.zipIdx_map_fst ..).symm
  let plain : Key PKey × Nat → Option Bytes → Bytes → Bytes → Traced (Entry (Nat × Nat)) Rc :=
    fun c algStr msg sig => pure (verifyRawWithKey E (primitive E) c.1 algStr msg sig)
  have hplain : (jwksVerifyRawTraced Prod.fst plain (some J.walk.zipIdx) keyid algStr msg sig
      pool).val = jwksVerifyRaw E (primitive E) (some J) keyid algStr msg sig pool :=
    val_jwksVerifyRawTraced (fun c algStr msg sig => rfl) hwalk _ _ _ _ _
  rw [← hplain]
  unfold jwksVerifyRawObjects at h
  match keyid, msg, sig, pool with
  | none, _, _, _ => exact Rc.noConfusion h
  | some _, none, _, _ => exact Rc.noConfusion h
  | some _, some _, none, _ => exact Rc.noConfusion h
  | some _, some _, some _, none => exact Rc.noConfusion h
  | some keyid, some msg, some sig, some pool =>
    unfold jwksVerifyRawTraced at h ⊢
    dsimp only at h ⊢
    split at h
    · exact Rc.noConfusion h
    next hsig =>
    rw [if_neg hsig]
    split at h
    · exact Rc.noConfusion h
    next hkeyid =>
    rw [if_neg hkeyid]
    cases hfind : J.walk.zipIdx.find? fun c =>
        decide (c.1.thumbprint.length > 0) && strEq c.1.thumbprint keyid with
    | none =>
      simp only [hfind] at h
      exact Rc.noConfusion h
    | some c =>
      simp only [hfind] at h ⊢
      rcases val_rawObjects (F := F) c algStr msg sig with heq | ⟨hdeclined, -⟩
      · exact heq.symm.trans h
      · exact absurd (hdeclined.symm.trans h) (by decide)

theorem jwksVerifyRawByKid_of_objects {kid algStr msg sig : Option Bytes} {pool : Option Pool}
    (h : (jwksVerifyRawByKidObjects E F J kid algStr msg sig pool).val = .ok) :
    jwksVerifyRawByKid E (primitive E) (some J) kid algStr msg sig pool = .ok := by
  unfold jwksVerifyRawByKidObjects at h
  match kid, msg, sig, pool with
  | none, _, _, _ => exact Rc.noConfusion h
  | some _, none, _, _ => exact Rc.noConfusion h
  | some _, some _, none, _ => exact Rc.noConfusion h
  | some _, some _, some _, none => exact Rc.noConfusion h
  | some kid, some msg, some sig, some pool =>
    unfold jwksVerifyRawByKidTraced at h
    unfold jwksVerifyRawByKid
    dsimp only at h ⊢
    split at h
    · exact Rc.noConfusion h
    next hsig =>
    rw [if_neg hsig]
    simp only [ite_pure, val_bind, val_pure, val_tryEachTraced] at h
    split at h
    next hhit =>
      obtain ⟨c, hc, hkid, hacc⟩ := (tryEach_start_hit_iff _).mp hhit
      refine if_pos ((tryEach_start_hit_iff _).mpr ⟨c.1, ?_, hkid, ?_⟩)
      · exact mem_of_mem_zipIdx hc
      · unfold rawTrialTraced at hacc
        unfold rawTrial
        rw [val_bind] at hacc
        rcases val_rawObjects (E := E) (F := F) c algStr msg sig with heq | ⟨hdeclined, -⟩
        · rw [← heq]
          cases hval : (rawAtPosition E F c algStr msg sig).val with
          | ok => rfl
          | declined | error =>
            rw [hval] at hacc
            exact absurd hacc (by decide)
        · rw [hdeclined] at hacc
          exact absurd hacc (by decide)
    · exact Rc.noConfusion h

/-- **Every object of a verification is freed once, whatever fails.**  In a verification of a token
or of a detached signature, each object that OpenSSL makes for the call is freed exactly once before
it returns, and the call succeeds only if it succeeds when nothing fails; and when nothing fails, it
answers what `nxe_jwx_jws_verify` and its detached siblings answer. -/
theorem verification_objects (E : Env PKey) (F : Nat → VerifyFaults) (J : Jwks PKey)
    (pool : Option Pool) :
    (∀ token,
      (∀ o, Settled o (jwsVerifyObjects E F token J pool).events) ∧
      ((jwsVerifyObjects E F token J pool).val.rc = .ok →
        jwsVerify E (primitive E) token (some J) pool = .ok) ∧
      ((∀ i step, F i step = false) → (jwsVerifyObjects E F token J pool).val =
        jwsVerifyRun E (primitive E) token (some J) pool)) ∧
    (∀ keyid algStr msg sig,
      (∀ o, Settled o (jwksVerifyRawObjects E F J keyid algStr msg sig pool).events) ∧
      ((jwksVerifyRawObjects E F J keyid algStr msg sig pool).val = .ok →
        jwksVerifyRaw E (primitive E) (some J) keyid algStr msg sig pool = .ok) ∧
      ((∀ i step, F i step = false) → (jwksVerifyRawObjects E F J keyid algStr msg sig pool).val =
        jwksVerifyRaw E (primitive E) (some J) keyid algStr msg sig pool)) ∧
    (∀ kid algStr msg sig,
      (∀ o, Settled o (jwksVerifyRawByKidObjects E F J kid algStr msg sig pool).events) ∧
      ((jwksVerifyRawByKidObjects E F J kid algStr msg sig pool).val = .ok →
        jwksVerifyRawByKid E (primitive E) (some J) kid algStr msg sig pool = .ok) ∧
      ((∀ i step, F i step = false) →
        (jwksVerifyRawByKidObjects E F J kid algStr msg sig pool).val =
          jwksVerifyRawByKid E (primitive E) (some J) kid algStr msg sig pool)) := by
  have hwalk : J.walk = J.walk.zipIdx.map Prod.fst := (List.zipIdx_map_fst ..).symm
  refine ⟨fun token => ⟨?_, jwsVerify_of_objects, ?_⟩,
    fun keyid algStr msg sig => ⟨?_, jwksVerifyRaw_of_objects, ?_⟩,
    fun kid algStr msg sig => ⟨?_, jwksVerifyRawByKid_of_objects, ?_⟩⟩
  · exact (atPositions_jwsVerify token pool).settled
  · intro hnone
    exact val_jwsVerifyTraced (fun c alg msg sig => val_objects_eq hnone c alg msg sig) token
      hwalk pool
  · exact (atPositions_jwksVerifyRaw keyid algStr msg sig pool).settled
  · intro hnone
    exact val_jwksVerifyRawTraced (fun c algStr msg sig => val_rawObjects_eq hnone c algStr msg sig)
      hwalk _ _ _ _ _
  · exact (atPositions_jwksVerifyRawByKid kid algStr msg sig pool).settled
  · intro hnone
    exact val_jwksVerifyRawByKidTraced
      (fun c algStr msg sig => val_rawObjects_eq hnone c algStr msg sig) hwalk _ _ _ _ _

end NxeJwx
