/-
# The entries of both documents, with their objects

The answer of an entry is the one of `parseOneKey` or `keyvalStep`, although an object can fail to
be made in more ways than these have faults: each way amounts to one of their faults (`Lowers`,
`val_parseOneKey`, `val_keyvalMember`).

A member of a keyval document is here too.  Its handle is a local variable of the loop until
`k->pkey` takes it over, and is freed from wherever it is when the member is given up
(`hands_keyvalMember`).
-/
import NxeJwx.KeyObjects

namespace NxeJwx

open Ledger Objects SharedTail FillSlots

variable {PKey : Type}

/-! ## 1. Faults -/

/-- Faults of a thumbprint whose numbers may be missing. -/
def orFirst (f : ThumbprintFaults) (missing : Bool) : ThumbprintFaults :=
  fun step => f step || (missing && step == .first)

/-- Faults of an entry, with the steps that stand for objects replaced. -/
def lower (f : EntryFaults) (bignum build bio first : Bool) : EntryFaults
  | .bignum => bignum
  | .build => build
  | .bio => f .bio || bio
  | .thumbprint step => orFirst (fun s => f (.thumbprint s)) first step
  | step => f step

theorem lower_field {f : EntryFaults} {bignum build bio first : Bool} (name : Bytes) :
    lower f bignum build bio first (.field name) = f (.field name) := rfl

/-- `f'` is `f` with the steps that stand for objects replaced: none of them fails on its own when
no object fails. -/
def Lowers (g : KeyFaults) (f f' : EntryFaults) : Prop :=
  ∃ bignum build bio first, f' = lower f bignum build bio first ∧
    ((bignum || build || bio || first) = true → ∃ step, g step = true)

section Faults

variable {E : Env PKey} {f : ThumbprintFaults} {k : Key PKey}

theorem orFirst_other {missing : Bool} {step : ThumbprintStep} (h : step ≠ .first) :
    orFirst f missing step = f step := by
  simp [orFirst, h]

@[simp] theorem orFirst_false : orFirst f false = f := by
  funext step
  exact Bool.or_false _

theorem orFirst_true : orFirst f true .first = true := Bool.or_true _

theorem bnToB64url_fault (bn padLen : Nat) : bnToB64url E true bn padLen = none := by
  simp only [bnToB64url, encodeB64url, if_true, ite_self]

theorem pairText_orFirst (a b : Option Nat) (padLen : Nat) (text : Bytes → Bytes → Bytes) :
    pairText E (orFirst f true) a b padLen text = none := by
  unfold pairText
  cases a with
  | none => rfl
  | some a =>
    cases b with
    | none => rfl
    | some b =>
      dsimp only [Option.bind_eq_bind, Option.bind_some]
      rw [orFirst_true, bnToB64url_fault]
      rfl

theorem thumbprintRsa_orFirst : thumbprintRsa E (orFirst f true) k = none := by
  rw [thumbprintRsa_eq]
  cases k.pkey with
  | none => rfl
  | some pkey => exact pairText_orFirst ..

theorem thumbprintEc_orFirst : thumbprintEc E (orFirst f true) k = none := by
  rw [thumbprintEc_eq]
  cases k.pkey with
  | none => rfl
  | some pkey =>
    rw [Option.bind_some, pairText_orFirst]
    exact ite_self _

/-- A text that may be missing is the text with faults. -/
theorem OrFails.text {g : KeyFaults} (text : ThumbprintFaults → Option Bytes) {a : Option Bytes}
    (h : OrFails g a (text f)) (hmissing : text (orFirst f true) = none) :
    ∃ missing, a = text (orFirst f missing) ∧ (missing = true → ∃ step, g step = true) := by
  rcases h with h | ⟨h, hstep⟩
  · exact ⟨false, by rw [orFirst_false]; exact h, fun h => Bool.noConfusion h⟩
  · exact ⟨true, h.trans hmissing.symm, fun _ => hstep⟩

end Faults

/-! ## 2. The answers of an entry -/

section Entry

variable {api : OsslApi} {E : Env PKey} {g : KeyFaults}

theorem thumbprintTextBody_eq {f : ThumbprintFaults} (k : Key PKey) (s : Frame PUnit) :
    ∃ missing s', thumbprintTextBody api E f g k s =
        (.next (thumbprintText E (orFirst f missing) k), s') ∧
      (missing = true → ∃ step, g step = true) := by
  unfold thumbprintTextBody thumbprintText
  cases k.kty with
  | rsa =>
    have h : OrFails g (thumbprintRsaObjects api E f g k s.books).val _ := val_thumbprintRsa _
    obtain ⟨missing, heq, hstep⟩ := h.text (fun f => thumbprintRsa E f k) thumbprintRsa_orFirst
    refine ⟨missing, { s with books := (thumbprintRsaObjects api E f g k s.books).books }, ?_,
      hstep⟩
    dsimp only
    rw [← heq]
    rfl
  | ec =>
    have h : OrFails g (thumbprintEcObjects api E f g k s.books).val _ := val_thumbprintEc _
    obtain ⟨missing, heq, hstep⟩ := h.text (fun f => thumbprintEc E f k) thumbprintEc_orFirst
    refine ⟨missing, { s with books := (thumbprintEcObjects api E f g k s.books).books }, ?_,
      hstep⟩
    dsimp only
    rw [← heq]
    rfl
  | okp | oct | unknown =>
    refine ⟨false, s, ?_, fun h => Bool.noConfusion h⟩
    rw [orFirst_false]
    rfl

theorem val_jwkThumbprintObjects {f : ThumbprintFaults} (key : Key PKey) (B : Books) :
    ∃ missing, (jwkThumbprintObjects api E f g key B).val =
        jwkThumbprint E (orFirst f missing) key ∧
      (missing = true → ∃ step, g step = true) := by
  obtain ⟨missing, s', htext, hstep⟩ :=
    @thumbprintTextBody_eq _ api E g f { key with thumbprint := [] } (.enter PUnit B)
  refine ⟨missing, ?_, hstep⟩
  rw [jwkThumbprintObjects, val_withLabel, jwkThumbprintBody]
  dsimp only
  rw [run_bind_next htext]
  unfold jwkThumbprint
  dsimp only
  rw [orFirst_other (show ThumbprintStep.digest ≠ .first by decide),
    orFirst_other (show ThumbprintStep.out ≠ .first by decide)]
  cases thumbprintText E (orFirst f missing) { key with thumbprint := [] } with
  | declined | error => rfl
  | ok json =>
    dsimp only
    split
    · rfl
    cases (if f .digest then none else E.ossl.digest .sha256 json) with
    | none => rfl
    | some digest =>
      dsimp only
      cases encodeB64url E (f .out) digest <;> rfl

variable {f : EntryFaults} {k : Key PKey} {jwk : Json}

/-- A key that may not have been built. -/
theorem OrFails.made {a made : Option PKey} (h : OrFails g a made) :
    ∃ build, a = (if build then none else made) ∧ (build = true → ∃ step, g step = true) := by
  rcases h with h | ⟨h, hstep⟩
  · exact ⟨false, h, fun h => Bool.noConfusion h⟩
  · exact ⟨true, h, fun _ => hstep⟩

/-- The numbers of an RSA key and its handle, by the faults that their steps amount to. -/
theorem run_rsaNumbers (nBn eBn : Nat) (s : Frame RsaVar) :
    ∃ bignum build, (rsaNumbersBody api E g k nBn eBn).run (fun r _ => id r)
        (fun r _ => r.getD (.error, .zero)) s =
      (if bignum then (.error, k)
      else if BigEndian.bitLength nBn < minRsaBits ∨ BigEndian.bitLength nBn > maxRsaBits then
        (.declined, k)
      else
        match (if build then none else E.ossl.rsaFromData nBn eBn) with
        | none => (.error, { k with pkey := none })
        | some pkey => (.ok, { k with pkey := some pkey, kty := .rsa })) ∧
      ((bignum || build) = true → ∃ step, g step = true) := by
  unfold rsaNumbersBody
  simp only [run_new, run_ifNull, List.any_cons, List.any_nil, Bool.or_false, isNone_make_same,
    var_make_other (show RsaVar.n ≠ RsaVar.e by decide)]
  by_cases hbn : (g .nBn || g .eBn) = true
  · refine ⟨true, false, ?_, fun _ => ?_⟩
    · rw [if_pos hbn]
      rfl
    · rcases Bool.or_eq_true_iff.mp hbn with h | h
      · exact ⟨_, h⟩
      · exact ⟨_, h⟩
  rw [if_neg hbn]
  by_cases hbits : BigEndian.bitLength nBn < minRsaBits ∨ BigEndian.bitLength nBn > maxRsaBits
  · refine ⟨false, false, ?_, fun h => Bool.noConfusion h⟩
    rw [if_pos hbits, if_pos hbits]
    rfl
  obtain ⟨build, hmade, hstep⟩ :=
    (val_buildRsa (E.ossl.rsaFromData nBn eBn) _ : OrFails g (buildRsaObjects api g _
      ((s.make .n (g .nBn)).make .e (g .eBn)).books).val _).made
  refine ⟨false, build, ?_, hstep⟩
  rw [if_neg hbits, if_neg hbits, run_call, hmade]
  cases (if build then none else E.ossl.rsaFromData nBn eBn) <;> rfl

theorem val_parseRsa (bio first : Bool) (B : Books) :
    ∃ bignum build, (parserObjects .pkey (parseRsaBody api E f g k jwk) B).val =
        parseRsa E (lower f bignum build bio first) k jwk ∧
      ((bignum || build) = true → ∃ step, g step = true) := by
  rw [parserObjects, val_withLabel]
  unfold parseRsaBody parseRsa
  simp only [lower]
  cases b64urlField E (f (.field (ascii "n"))) jwk (ascii "n") with
  | error | declined => exact ⟨false, false, rfl, fun h => Bool.noConfusion h⟩
  | ok n =>
    dsimp only
    cases b64urlField E (f (.field (ascii "e"))) jwk (ascii "e") with
    | error | declined => exact ⟨false, false, rfl, fun h => Bool.noConfusion h⟩
    | ok e => exact run_rsaNumbers ..

/-- The end of the parsers of EC and OKP keys. -/
theorem run_keyOf {made : Option PKey} {gb : Books → Done (Option PKey)} {kty : Kty}
    (h : ∀ B, OrFails g (gb B).val made) (s : Frame PUnit) :
    ∃ build, (call ⟨⟩ gb >>= fun pkey =>
        (match pkey with
          | none => Body.ret (.error, { k with pkey := none })
          | some pkey => Body.ret (.ok, { k with pkey := some pkey, kty := kty }) :
            Code PUnit (Rc × Key PKey) PUnit)).run (fun r _ => id r)
        (fun r _ => r.getD (.error, .zero)) s =
      (match (if build then none else made) with
        | none => (.error, { k with pkey := none })
        | some pkey => (.ok, { k with pkey := some pkey, kty := kty })) ∧
      (build = true → ∃ step, g step = true) := by
  obtain ⟨build, hmade, hstep⟩ := (h s.books).made
  refine ⟨build, ?_, hstep⟩
  rw [run_call, hmade]
  cases (if build then none else made) <;> rfl

theorem val_parseEc (bignum bio first : Bool) (B : Books) :
    ∃ build, (parserObjects ⟨⟩ (parseEcBody api E f g k jwk) B).val =
        parseEc E (lower f bignum build bio first) k jwk ∧
      (build = true → ∃ step, g step = true) := by
  have hsame : ∀ {a b : Rc × Key PKey}, a = b →
      ∃ build : Bool, a = b ∧ (build = true → ∃ step, g step = true) :=
    fun h => ⟨false, h, fun h => Bool.noConfusion h⟩
  rw [parserObjects, val_withLabel]
  unfold parseEcBody parseEc
  simp only [lower_field]
  split
  · exact hsame rfl
  cases lookupEcCurve k.crv with
  | none => exact hsame rfl
  | some curve =>
    dsimp only
    cases b64urlField E (f (.field (ascii "x"))) jwk (ascii "x") with
    | error | declined => exact hsame rfl
    | ok x =>
      dsimp only
      split
      · exact hsame rfl
      cases b64urlField E (f (.field (ascii "y"))) jwk (ascii "y") with
      | error | declined => exact hsame rfl
      | ok y =>
        dsimp only
        split
        · exact hsame rfl
        by_cases hpoint : f .point = true
        · refine ⟨false, ?_, fun h => Bool.noConfusion h⟩
          rw [if_pos hpoint, if_pos (show lower f bignum false bio first .point = true from hpoint)]
          rfl
        · obtain ⟨build, heq, hstep⟩ := run_keyOf (fun B => val_buildEc _ B) (.enter PUnit B)
          refine ⟨build, ?_, hstep⟩
          rw [if_neg hpoint,
            if_neg (show ¬ lower f bignum build bio first .point = true from hpoint)]
          exact heq

theorem val_parseOkp (bignum bio first : Bool) (B : Books) :
    ∃ build, (parserObjects ⟨⟩ (parseOkpBody E f g k jwk) B).val =
        parseOkp E (lower f bignum build bio first) k jwk ∧
      (build = true → ∃ step, g step = true) := by
  have hsame : ∀ {a b : Rc × Key PKey}, a = b →
      ∃ build : Bool, a = b ∧ (build = true → ∃ step, g step = true) :=
    fun h => ⟨false, h, fun h => Bool.noConfusion h⟩
  rw [parserObjects, val_withLabel]
  unfold parseOkpBody parseOkp
  simp only [lower]
  split
  · exact hsame rfl
  cases lookupOkpCurve k.crv with
  | none => exact hsame rfl
  | some curve =>
    dsimp only
    cases b64urlField E (f (.field (ascii "x"))) jwk (ascii "x") with
    | error | declined => exact hsame rfl
    | ok x =>
      dsimp only
      split
      · exact hsame rfl
      · exact run_keyOf (fun B => val_buildOkp _ B) _

theorem val_parseKty (kty : Bytes) (bio first : Bool) (B : Books) :
    ∃ bignum build, (parseKtyObjects api E f g kty k jwk B).val =
        parseKty E (lower f bignum build bio first) kty k jwk ∧
      ((bignum || build) = true → ∃ step, g step = true) := by
  unfold parseKtyObjects parseKty
  split
  · exact val_parseRsa ..
  split
  · obtain ⟨build, heq, hstep⟩ := @val_parseEc _ api E g f k jwk false bio first B
    exact ⟨false, build, heq, hstep⟩
  split
  · obtain ⟨build, heq, hstep⟩ := @val_parseOkp _ E g f k jwk false bio first B
    exact ⟨false, build, heq, hstep⟩
  split
  · exact ⟨false, false, rfl, fun h => Bool.noConfusion h⟩
  · exact ⟨false, false, rfl, fun h => Bool.noConfusion h⟩

/-- An entry answers as `parseOneKey` does. -/
theorem val_parseOneKey (slot : Key PKey) (B : Books) :
    ∃ f', Lowers g f f' ∧
      (parseOneKeyObjects api E f g jwk B).val = parseOneKey E f' slot jwk := by
  have hsame : ∀ {a b : Rc × Key PKey}, a = b →
      ∃ bignum build first : Bool, a = b ∧
        ((bignum || build || first) = true → ∃ step, g step = true) :=
    fun h => ⟨false, false, false, h, fun h => Bool.noConfusion h⟩
  suffices hall : ∃ bignum build first, (parseOneKeyObjects api E f g jwk B).val =
      parseOneKey E (lower f bignum build false first) slot jwk ∧
      ((bignum || build || first) = true → ∃ step, g step = true) by
    obtain ⟨bignum, build, first, heq, hstep⟩ := hall
    exact ⟨_, ⟨bignum, build, false, first, rfl, by simpa using hstep⟩, heq⟩
  rw [parseOneKeyObjects, parserObjects, val_withLabel]
  unfold parseOneKeyBody parseOneKey
  simp only [lower]
  cases stringField jwk (ascii "kty") with
  | none => exact hsame rfl
  | some kty =>
    dsimp only
    split
    · exact hsame rfl
    split
    · exact hsame rfl
    cases dupStrToPool (f .dupKid) ((stringField jwk (ascii "kid")).getD []) with
    | none => exact hsame rfl
    | some kid =>
    cases dupStrToPool (f .dupAlg) ((stringField jwk (ascii "alg")).getD []) with
    | none => exact hsame rfl
    | some alg =>
    cases dupStrToPool (f .dupCrv) ((stringField jwk (ascii "crv")).getD []) with
    | none => exact hsame rfl
    | some crv =>
      dsimp only
      rw [labelledBody, run_call]
      obtain ⟨bignum, build, hkty, hstep⟩ := @val_parseKty _ api E g f
        { Key.zero with kid := kid, alg := alg, crv := crv } jwk kty false false
        (Frame.enter PUnit B).books
      rw [hkty]
      split
      next hok =>
        rw [run_visit]
        obtain ⟨first, hthumb, hfirst⟩ := @val_jwkThumbprintObjects _ api E g
          (fun s => f (.thumbprint s))
          (parseKty E (lower f bignum build false false) kty
            { Key.zero with kid := kid, alg := alg, crv := crv } jwk).2
          (parseKtyObjects api E f g kty { Key.zero with kid := kid, alg := alg, crv := crv }
            jwk (Frame.enter PUnit B).books).books
        refine ⟨bignum, build, first, ?_, ?_⟩
        · rw [show parseKty E (lower f bignum build false first) = parseKty E
            (lower f bignum build false false) from rfl, if_pos hok]
          exact congrArg (fun r : Rc × Key PKey => (Rc.ok, r.2)) hthumb
        · intro h
          rcases Bool.or_eq_true_iff.mp h with h | h
          · exact hstep h
          · exact hfirst h
      next hne =>
        refine ⟨bignum, build, false, ?_, fun h => hstep (by simpa using h)⟩
        rw [if_neg hne]
        rfl

end Entry

/-! ## 3. The member of a keyval document -/

/-- The code of `nxe_jwx_ec_curve_from_pkey`.  In 1.1 it takes a reference to the `EC_KEY`. -/
def ecCurveFromPkeyBody (api : OsslApi) (O : Ossl PKey) (g : KeyFaults) (pkey : PKey) :
    Code PUnit (Option EcCurve) PUnit :=
  match api with
  | .v3 => .ret (ecCurveFromPkey O pkey)
  | .v1 => do
    new ⟨⟩ (g .ecRef)
    orRet ⟨⟩ none
    free ⟨⟩
    .ret (ecCurveFromPkey O pkey)

/-- `nxe_jwx_ec_curve_from_pkey`. -/
def ecCurveFromPkeyObjects (api : OsslApi) (O : Ossl PKey) (g : KeyFaults) (pkey : PKey) :
    Books → Done (Option EcCurve) :=
  withLabel [] none none id Option.join (ecCurveFromPkeyBody api O g pkey)

/-- The pointers of the loop of `nxe_jwx_jwks_parse_keyval`: `pkey`, and `k->pkey`. -/
inductive MemberVar where
  | pkey
  | slot
  deriving DecidableEq, Repr

/-- How a turn of the loop ends, and the key in the slot. -/
abbrev Turn (PKey : Type) := Outcome × Key PKey

/-- The part of the loop body that tells the key types apart. -/
def keyvalCrvBody (api : OsslApi) (O : Ossl PKey) (g : KeyFaults) (pkey : PKey) (k : Key PKey) :
    Code MemberVar (Turn PKey) (Option (Key PKey)) :=
  match ktyFromPkey O pkey with
  | .unknown => pure none
  | .ec => do
    let curve ← visit (ecCurveFromPkeyObjects api O g pkey)
    pure (curve.map fun curve => { k with crv := curve.jwkCrv })
  | .okp => pure ((okpCurveFromPkey O pkey).map fun curve => { k with crv := curve.jwkCrv })
  | _ => pure (some k)

/-- The loop body once the handle is there. -/
def keyvalHandleBody (api : OsslApi) (E : Env PKey) (f : EntryFaults) (g : KeyFaults)
    (kid : Bytes) (pkey : PKey) (slot : Key PKey) : Code MemberVar (Turn PKey) PUnit := do
  match ← keyvalCrvBody api E.ossl g pkey slot with
  | none =>
    free .pkey
    .ret (.skip, slot)
  | some k =>
    move .pkey .slot
    let k := { k with pkey := some pkey, kty := ktyFromPkey E.ossl pkey }
    match dupStrToPool (f .dupKid) kid with
    | none =>
      free .slot
      clear .slot
      .ret (.abort, { k with pkey := none })
    | some kid =>
      let t ← visit (jwkThumbprintObjects api E (fun s => f (.thumbprint s)) g
        { k with kid := kid })
      .ret (.keep, t.2)

/-- The loop body of `nxe_jwx_jwks_parse_keyval`. -/
def keyvalMemberBody (api : OsslApi) (E : Env PKey) (f : EntryFaults) (g : KeyFaults)
    (kid : Bytes) (member : Json) (slot : Key PKey) : Code MemberVar (Turn PKey) PUnit :=
  if kid.length = 0 then .ret (.skip, slot)
  else
    match member.stringOf with
    | none => .ret (.skip, slot)
    | some val =>
      if val.length = 0 then .ret (.skip, slot)
      else do
        match ← call .pkey (loadPemObjects (f .bio) (E.ossl.pemReadPubkey val)) with
        | none => .ret (.skip, slot)
        | some pkey => keyvalHandleBody api E f g kid pkey slot

/-- One turn of the loop of `nxe_jwx_jwks_parse_keyval`; the slot keeps what `k->pkey` holds. -/
def keyvalMemberObjects (api : OsslApi) (E : Env PKey) (f : EntryFaults) (g : KeyFaults)
    (kid : Bytes) (member : Json) (slot : Key PKey) : Books → Done (Turn PKey) :=
  withLabel [] none (some .slot) id (·.getD (.skip, slot))
    (keyvalMemberBody api E f g kid member slot)

section Member

variable {api : OsslApi} {E : Env PKey} {f : EntryFaults} {g : KeyFaults}

/-- Only a slot that is kept has a handle. -/
def KeptOnly (r : Turn PKey) (o : Option Obj) : Prop := r.1 ≠ .keep → o = none

/-- A turn that ends without a handle. -/
theorem noSlot_returned {outer : List Nat} {stale ys : List MemberVar} {s : Frame MemberVar}
    {r : Turn PKey} (h : At outer [] stale ys s) (hx : .slot ∉ stale) :
    Sound s.books (nodesOf ((some MemberVar.slot).bind s.var) ++ outer) ∧
      KeptOnly r ((some MemberVar.slot).bind s.var) :=
  ⟨h.handed (fun _ hy => absurd hy List.not_mem_nil) hx,
    fun _ => h.null .slot List.not_mem_nil hx⟩

theorem balanced_ecCurveFromPkey (pkey : PKey) :
    Balanced (ecCurveFromPkeyObjects api E.ossl g pkey) := by
  refine balanced_withLabel (by decide) fun outer => ?_
  unfold ecCurveFromPkeyBody
  cases api with
  | v3 => exact Triple.leave fun s h => h.returned
  | v1 =>
    refine Triple.bind (triple_new (by decide) (by decide)) fun _ => ?_
    refine Triple.bind (triple_orRet fun s h hnull => ?_) fun _ => ?_
    · exact h.dropNull List.mem_cons_self hnull
    refine Triple.bind (triple_free (by decide)) fun _ => ?_
    exact Triple.leave fun s h => h.returned

theorem triple_keyvalCrv {outer : List Nat} {vs ys : List MemberVar} (pkey : PKey) (k : Key PKey)
    {ret jump : Turn PKey → Frame MemberVar → Prop} :
    Triple (At outer vs [] ys) (keyvalCrvBody api E.ossl g pkey k) (fun _ => At outer vs [] ys)
      ret jump := by
  unfold keyvalCrvBody
  split
  · exact Triple.pure fun s h => h
  · refine Triple.bind (triple_visit (balanced_ecCurveFromPkey _) fun _ => handed_withLabel ..)
      fun curve => ?_
    exact Triple.pure fun s h => h
  · exact Triple.pure fun s h => h
  · exact Triple.pure fun s h => h

/-- A member that is given up keeps no handle. -/
theorem hands_keyvalMember (kid : Bytes) (member : Json) (slot : Key PKey) :
    Hands KeptOnly (keyvalMemberObjects api E f g kid member slot) := by
  refine hands_withLabel (by decide) fun outer => ?_
  unfold keyvalMemberBody
  split
  · exact Triple.leave fun s h => noSlot_returned h (by decide)
  split
  · exact Triple.leave fun s h => noSlot_returned h (by decide)
  split
  · exact Triple.leave fun s h => noSlot_returned h (by decide)
  refine Triple.bind (triple_call_hands (hands_loadPem ..) (by decide) (by decide))
    fun pkey => ?_
  cases pkey with
  | none =>
    refine Triple.leave fun s h => ⟨?_, fun _ => h.1.null .slot (by decide) (by decide)⟩
    -- the handle is NULL, and so is `k->pkey`
    have hslot : s.var .slot = none := h.1.null .slot (by decide) (by decide)
    have hsound := h.1.dropNull List.mem_cons_self (h.2 rfl)
    show Sound s.books (nodesOf (s.var .slot) ++ outer)
    rw [hslot]
    exact hsound
  | some pkey =>
    unfold keyvalHandleBody
    refine Triple.bind (m := fun _ => At outer [.pkey] [] []) ?_ fun k => ?_
    · exact (triple_keyvalCrv pkey slot).weaken (fun _ h => h.1) (fun _ _ h => h) fun _ _ h => h
    cases k with
    | none =>
      refine Triple.bind (triple_free (by decide)) fun _ => ?_
      exact Triple.leave fun s h => noSlot_returned h (by decide)
    | some k =>
      refine Triple.bind (triple_move (by decide) (by decide) (by decide)) fun _ => ?_
      dsimp only
      split
      · refine Triple.bind (triple_free (by decide)) fun _ => ?_
        refine Triple.bind (triple_clear [.pkey] [] (by decide) (by decide) (by decide))
          fun _ => ?_
        exact Triple.leave fun s h => noSlot_returned h (by decide)
      · refine Triple.bind (triple_visit balanced_jwkThumbprint fun _ => handed_withLabel ..)
          fun t => ?_
        exact Triple.leave fun s h =>
          ⟨h.handed (by decide) (by decide), fun hne => absurd rfl hne⟩

theorem val_ecCurveFromPkey (pkey : PKey) (B : Books) :
    OrFails g (ecCurveFromPkeyObjects api E.ossl g pkey B).val (ecCurveFromPkey E.ossl pkey) := by
  rw [ecCurveFromPkeyObjects, val_withLabel]
  unfold ecCurveFromPkeyBody
  cases api with
  | v3 => exact .inl rfl
  | v1 =>
    dsimp only
    rw [run_new, run_orRet, isNone_make_same]
    split
    next h => exact .inr ⟨rfl, _, h⟩
    · exact .inl rfl

/-- A curve that could not be read off gives the member up. -/
theorem keyvalCrvBody_eq (pkey : PKey) (k : Key PKey) (s : Frame MemberVar) :
    ∃ lost s', keyvalCrvBody api E.ossl g pkey k s =
        (.next (if lost then none else keyvalCrv E.ossl pkey k), s') ∧
      (lost = true → ∃ step, g step = true) := by
  have hsame : ∀ {a b : Option (Key PKey)}, a = b → ∃ lost : Bool, ∃ s',
      ((.next a, s) : Flow (Turn PKey) (Option (Key PKey)) × Frame MemberVar) =
        (.next (if lost then none else b), s') ∧ (lost = true → ∃ step, g step = true) :=
    fun h => ⟨false, s, by rw [h]; rfl, fun h => Bool.noConfusion h⟩
  unfold keyvalCrvBody keyvalCrv
  cases ktyFromPkey E.ossl pkey with
  | unknown | rsa | oct => exact hsame rfl
  | okp =>
    refine hsame ?_
    cases okpCurveFromPkey E.ossl pkey <;> rfl
  | ec =>
    have h : OrFails g (ecCurveFromPkeyObjects api E.ossl g pkey s.books).val _ :=
      val_ecCurveFromPkey ..
    obtain ⟨s', hs'⟩ : ∃ s', s' =
        { s with books := (ecCurveFromPkeyObjects api E.ossl g pkey s.books).books } := ⟨_, rfl⟩
    rcases h with h | ⟨h, hstep⟩
    · refine ⟨false, s', ?_, fun h => Bool.noConfusion h⟩
      dsimp only
      rw [visit_bind, h, hs']
      cases ecCurveFromPkey E.ossl pkey <;> rfl
    · refine ⟨true, s', ?_, fun _ => hstep⟩
      dsimp only
      rw [visit_bind, h, hs']
      rfl

/-- A member answers as `keyvalStep` does. -/
theorem val_keyvalMember (kid : Bytes) (member : Json) (slot : Key PKey) (i : Nat) (B : Books) :
    ∃ f', Lowers g f f' ∧ (keyvalMemberObjects api E f g kid member slot B).val =
      keyvalStep E ⟨false, false, fun _ => f'⟩ ((kid, member), i) slot := by
  suffices hall : ∃ bio first, (keyvalMemberObjects api E f g kid member slot B).val =
      keyvalStep E ⟨false, false, fun _ => lower f false false bio first⟩ ((kid, member), i) slot ∧
      ((bio || first) = true → ∃ step, g step = true) by
    obtain ⟨bio, first, heq, hstep⟩ := hall
    exact ⟨_, ⟨false, false, bio, first, rfl, by simpa using hstep⟩, heq⟩
  have hsame : ∀ {a b : Turn PKey}, a = b → ∃ bio first : Bool, a = b ∧
      ((bio || first) = true → ∃ step, g step = true) :=
    fun h => ⟨false, false, h, fun h => Bool.noConfusion h⟩
  rw [keyvalMemberObjects, val_withLabel]
  unfold keyvalMemberBody keyvalStep
  dsimp only
  split
  · exact hsame rfl
  cases member.stringOf with
  | none => exact hsame rfl
  | some val =>
    dsimp only
    split
    · exact hsame rfl
    rw [run_call, val_loadPemObjects]
    by_cases hbio : f .bio = true
    · refine ⟨false, false, ?_, fun h => Bool.noConfusion h⟩
      simp only [loadPemPubkey, lower, hbio, Bool.or_false, if_true]
      rfl
    rw [if_neg hbio]
    have hload : ∀ lost first, loadPemPubkey E (lower f false false lost first .bio) val =
        if lost then none else E.ossl.pemReadPubkey val := by
      intro lost first
      simp only [loadPemPubkey, lower, Bool.not_eq_true _ ▸ hbio, Bool.false_or]
    simp only [hload]
    cases E.ossl.pemReadPubkey val with
    | none => exact ⟨false, false, rfl, fun h => Bool.noConfusion h⟩
    | some pkey =>
      dsimp only
      rw [keyvalHandleBody]
      generalize Frame.mk _ _ = s
      obtain ⟨lost, s', hcrv, hstep⟩ := @keyvalCrvBody_eq _ api E g pkey slot s
      rw [run_bind_next hcrv]
      cases lost with
      | true => exact ⟨true, false, rfl, fun _ => hstep rfl⟩
      | false =>
        cases hk : keyvalCrv E.ossl pkey slot with
        | none =>
          refine ⟨false, false, ?_, fun h => Bool.noConfusion h⟩
          simp only [Bool.false_eq_true, if_false, hk]
          rfl
        | some k =>
          cases hdup : dupStrToPool (f .dupKid) kid with
          | none =>
            refine ⟨false, false, ?_, fun h => Bool.noConfusion h⟩
            simp only [lower, Bool.false_eq_true, if_false, hk, hdup]
            rfl
          | some kid' =>
            obtain ⟨first, hthumb, hfirst⟩ := @val_jwkThumbprintObjects _ api E g
              (fun s => f (.thumbprint s))
              { k with pkey := some pkey, kty := ktyFromPkey E.ossl pkey, kid := kid' } s'.books
            refine ⟨false, first, ?_, by simpa using hfirst⟩
            simp only [lower, Bool.false_eq_true, if_false, hk, hdup]
            exact congrArg (fun r : Rc × Key PKey => (Outcome.keep, r.2)) hthumb

end Member

end NxeJwx
