/-
# The logged parsers parse

Without their events, the functions of `Lifetime.lean` are those of the earlier modules: each
lemma drops the events and what the slots point to, and finds the function it logs.
-/
import NxeJwx.Lifetime

namespace NxeJwx

open FillSlots Traced

variable {PKey : Type} {E : Env PKey} {L : Leftovers}

/-! ## 1. One entry -/

@[simp] theorem key_setPkey (k : Slot PKey) (i : Nat) (pkey : Option PKey) :
    (k.setPkey i pkey).key = { k.key with pkey := pkey } := rfl

@[simp] theorem key_setKty (k : Slot PKey) (kty : Kty) :
    (k.setKty kty).key = { k.key with kty := kty } := rfl

@[simp] theorem val_buildLogged (half : Bool) (i : Nat) (made : Option PKey) :
    (buildLogged half i made).val = made := by
  cases made with
  | some pkey => rfl
  | none => cases half <;> rfl

/-- A result without what its slot points to. -/
def erase {α : Type} (r : α × Slot PKey) : α × Key PKey := (r.1, r.2.key)

/-- The end of the three parsers that build a handle. -/
theorem val_built (k : Slot PKey) (half : Bool) (i : Nat) (made : Option PKey) (kty : Kty) :
    erase ((buildLogged half i made >>= fun pkey =>
      if pkey.isNone then return (.error, k.setPkey i pkey)
      else return (Rc.ok, (k.setPkey i pkey).setKty kty)).val) =
    match made with
    | none => (.error, { k.key with pkey := none })
    | some pkey => (.ok, { k.key with pkey := some pkey, kty := kty }) := by
  cases made <;> simp [erase]

theorem val_parseRsaLogged (f : EntryFaults) (i : Nat) (k : Slot PKey) (jwk : Json) :
    erase (parseRsaLogged E L f i k jwk).val = parseRsa E f k.key jwk := by
  unfold parseRsaLogged parseRsa
  cases b64urlField E (f (.field (ascii "n"))) jwk (ascii "n") with
  | error | declined => rfl
  | ok n =>
    dsimp only
    cases b64urlField E (f (.field (ascii "e"))) jwk (ascii "e") with
    | error | declined => rfl
    | ok e =>
      dsimp only
      split
      · rfl
      split
      · rfl
      · exact val_built ..

theorem val_parseEcLogged (f : EntryFaults) (i : Nat) (k : Slot PKey) (jwk : Json) :
    erase (parseEcLogged E L f i k jwk).val = parseEc E f k.key jwk := by
  unfold parseEcLogged parseEc
  split
  · rfl
  cases lookupEcCurve k.key.crv with
  | none => rfl
  | some curve =>
    dsimp only
    cases b64urlField E (f (.field (ascii "x"))) jwk (ascii "x") with
    | error | declined => rfl
    | ok x =>
      dsimp only
      split
      · rfl
      cases b64urlField E (f (.field (ascii "y"))) jwk (ascii "y") with
      | error | declined => rfl
      | ok y =>
        dsimp only
        split
        · rfl
        split
        · rfl
        · exact val_built ..

theorem val_parseOkpLogged (f : EntryFaults) (i : Nat) (k : Slot PKey) (jwk : Json) :
    erase (parseOkpLogged E f i k jwk).val = parseOkp E f k.key jwk := by
  unfold parseOkpLogged parseOkp
  split
  · rfl
  cases lookupOkpCurve k.key.crv with
  | none => rfl
  | some curve =>
    dsimp only
    cases b64urlField E (f (.field (ascii "x"))) jwk (ascii "x") with
    | error | declined => rfl
    | ok x =>
      dsimp only
      split
      · rfl
      · exact val_built ..

theorem val_b64urlFieldLogged (fault : Bool) (i : Nat) (jwk : Json) (name : Bytes) :
    (b64urlFieldLogged E L fault i jwk name).val = b64urlField E fault jwk name := by
  unfold b64urlFieldLogged b64urlField
  cases jwk.stringAt name with
  | none => rfl
  | some src =>
    dsimp only
    split
    · rfl
    split
    · rfl
    cases E.b64.decode src <;> rfl

theorem val_parseOctLogged (f : EntryFaults) (i : Nat) (k : Slot PKey) (jwk : Json) :
    erase (parseOctLogged E L f i k jwk).val = parseOct E f k.key jwk := by
  unfold parseOctLogged parseOct
  rw [val_bind, val_b64urlFieldLogged]
  cases b64urlField E (f (.field (ascii "k"))) jwk (ascii "k") with
  | error | declined => rfl
  | ok secret =>
    dsimp only
    split <;> rfl

theorem val_parseKtyLogged (f : EntryFaults) (i : Nat) (kty : Bytes) (k : Slot PKey)
    (jwk : Json) : erase (parseKtyLogged E L f i kty k jwk).val = parseKty E f kty k.key jwk := by
  unfold parseKtyLogged parseKty
  split
  · exact val_parseRsaLogged ..
  split
  · exact val_parseEcLogged ..
  split
  · exact val_parseOkpLogged ..
  split
  · exact val_parseOctLogged ..
  · rfl

theorem val_thumbprintTextLogged (f : ThumbprintFaults) (i : Nat) (k : Key PKey) :
    (thumbprintTextLogged E f i k).val = thumbprintText E f k := by
  unfold thumbprintTextLogged
  cases hk : k.kty with
  | rsa | ec | okp | unknown => rfl
  | oct =>
    dsimp only
    rw [thumbprintText, hk]
    dsimp only
    split
    · rw [val_bind, val_pure, thumbprintOctLogged, thumbprintOct]
      cases encodeB64url E (f .first) k.hmacSecret with
      | none => rfl
      | some kB64 =>
        dsimp only [Option.bind_eq_bind, Option.bind_some]
        rw [val_bind]
        split <;> rfl
    · rfl

@[simp] theorem val_jwkThumbprintLogged (f : ThumbprintFaults) (i : Nat) (k : Key PKey) :
    (jwkThumbprintLogged E f i k).val = jwkThumbprint E f k := by
  unfold jwkThumbprintLogged jwkThumbprint
  dsimp only
  rw [val_bind, val_thumbprintTextLogged]
  cases thumbprintText E f { k with thumbprint := [] } with
  | declined | error => rfl
  | ok json =>
    dsimp only
    split
    · rfl
    cases (if f .digest then none else E.ossl.digest .sha256 json) with
    | none => rfl
    | some digest =>
      dsimp only
      rw [val_bind]
      cases encodeB64url E (f .out) digest <;> rfl

/-- What is done with a labelled slot: the switch, and the thumbprint if it succeeds. -/
theorem val_labelledLogged (f : EntryFaults) (i : Nat) (kty : Bytes) (k : Key PKey)
    (jwk : Json) :
    erase (parseKtyLogged E L f i kty (.ofKey k) jwk >>= fun r =>
      if r.1 = .ok then do
        let t ← jwkThumbprintLogged E (fun s => f (.thumbprint s)) i r.2.key
        return (Rc.ok, ({ r.2 with key := t.2 } : Slot PKey))
      else return r).val =
    if (parseKty E f kty k jwk).1 = .ok then
      (.ok, (jwkThumbprint E (fun s => f (.thumbprint s)) (parseKty E f kty k jwk).2).2)
    else parseKty E f kty k jwk := by
  have hkty : erase (parseKtyLogged E L f i kty (.ofKey k) jwk).val = parseKty E f kty k jwk :=
    val_parseKtyLogged ..
  rw [val_bind, ← hkty]
  cases (parseKtyLogged E L f i kty (.ofKey k) jwk).val with
  | mk rc slot =>
    cases rc with
    | ok =>
      change (Rc.ok, (jwkThumbprintLogged E (fun s => f (.thumbprint s)) i slot.key).val.2) = _
      rw [val_jwkThumbprintLogged]
      rfl
    | declined | error => rfl

theorem val_parseOneKeyLogged (f : EntryFaults) (i : Nat) (slot : Slot PKey) (jwk : Json) :
    erase (parseOneKeyLogged E L f i slot jwk).val = parseOneKey E f slot.key jwk := by
  unfold parseOneKeyLogged parseOneKey
  cases stringField jwk (ascii "kty") with
  | none => rfl
  | some kty =>
    dsimp only
    split
    · rfl
    split
    · rfl
    cases dupStrToPool (f .dupKid) ((stringField jwk (ascii "kid")).getD []) with
    | none => rfl
    | some kid =>
    cases dupStrToPool (f .dupAlg) ((stringField jwk (ascii "alg")).getD []) with
    | none => rfl
    | some alg =>
    cases dupStrToPool (f .dupCrv) ((stringField jwk (ascii "crv")).getD []) with
    | none => rfl
    | some crv => exact val_labelledLogged ..

/-! ## 2. The two documents -/

theorem val_jwksStepLogged (F : ParseFaults) (entry : Json × Nat) (slot : Slot PKey) :
    erase (jwksStepLogged E L F entry slot).val = jwksStep E F entry slot.key := by
  unfold jwksStepLogged jwksStep
  split
  · rfl
  rw [val_bind, ← val_parseOneKeyLogged (L := L) (i := entry.2)]
  cases (parseOneKeyLogged E L (F.entry entry.2) entry.2 slot entry.1).val with
  | mk rc k => cases rc <;> rfl

theorem val_keyvalStepLogged (F : ParseFaults) (entry : (Bytes × Json) × Nat)
    (slot : Slot PKey) :
    erase (keyvalStepLogged E F entry slot).val = keyvalStep E F entry slot.key := by
  unfold keyvalStepLogged keyvalStep
  dsimp only
  split
  · rfl
  cases entry.1.2.stringOf with
  | none => rfl
  | some val =>
    dsimp only
    split
    · rfl
    cases loadPemPubkey E (F.entry entry.2 .bio) val with
    | none => rfl
    | some pkey =>
      dsimp only
      rw [val_bind]
      cases keyvalCrv E.ossl pkey slot.key with
      | none => rfl
      | some k =>
        dsimp only
        cases dupStrToPool (F.entry entry.2 .dupKid) entry.1.1 with
        | none => rfl
        | some kid =>
          dsimp only
          rw [val_bind, val_jwkThumbprintLogged]
          rfl

@[simp] theorem val_leave (p : Parsed PKey) : (leave p).val = p := rfl

@[simp] theorem jwks_nothing : (Parsed.nothing : Parsed PKey).jwks = none := rfl

/-- What the end of a parser returns is the keyset of its run. -/
theorem jwks_finish (run : Run (Slot PKey)) :
    (finish run).val.jwks = keysetOfRun (run.map Slot.key) := by
  cases run with
  | done s =>
    simp only [finish, val_leave, Parsed.jwks, Run.map, keysetOfRun, Slots.count_map,
      decide_eq_true_eq, ne_eq, ite_not, Option.map_some]
    rfl
  | aborted s | overrun => rfl

theorem map_jwksAllocLogged (fault : Bool) (capacity : Nat) :
    (jwksAllocLogged fault capacity : Option (Slots (Slot PKey))).map (Slots.map Slot.key) =
      jwksAlloc fault capacity := by
  unfold jwksAllocLogged jwksAlloc
  split
  · rfl
  · simp only [Option.map_some, Slots.map_blank]
    rfl

/-- The keyset of a loop, by what the slots stand for. -/
theorem jwks_fillTraced {ι : Type} (full : Nat → Bool)
    {step : ι → Slot PKey → Traced Event (Outcome × Slot PKey)}
    {step' : ι → Key PKey → Outcome × Key PKey}
    (h : ∀ i k, erase (step i k).val = step' i k.key) (is : List ι) (s : Slots (Slot PKey)) :
    (finish (fillTraced full step is s).val).val.jwks =
      keysetOfRun (fill full step' is (s.map Slot.key)) := by
  rw [jwks_finish, val_fillTraced full h]

/-- **Parsing a JWKS, without its events.** -/
theorem val_jwksParseLogged (F : ParseFaults) (doc : Option Bytes) (pool : Option Pool) :
    (jwksParseLogged E L F doc pool).val.jwks = jwksParse E F doc pool := by
  unfold jwksParseLogged jwksParse
  cases pool with
  | none => rfl
  | some pool =>
  cases doc with
  | none => rfl
  | some doc =>
  dsimp only
  split
  · rfl
  cases (if F.root then none else E.json.parseUntrusted doc) with
  | none => rfl
  | some root =>
    dsimp only
    rw [val_bind]
    split
    · rfl
    cases root.objectGet (ascii "keys") with
    | none => rfl
    | some node =>
      cases node with
      | array keys =>
        dsimp only
        split
        · rfl
        rw [← map_jwksAllocLogged]
        cases (jwksAllocLogged F.alloc (if keys.length ≠ 0 then keys.length else 1) :
            Option (Slots (Slot PKey))) with
        | none => rfl
        | some slots => exact jwks_fillTraced _ (val_jwksStepLogged F) ..
      | _ => rfl

/-- **Parsing a keyval document, without its events.** -/
theorem val_keyvalParseLogged (F : ParseFaults) (doc : Option Bytes) (pool : Option Pool) :
    (keyvalParseLogged E F doc pool).val.jwks = keyvalParse E F doc pool := by
  unfold keyvalParseLogged keyvalParse
  cases pool with
  | none => rfl
  | some pool =>
  cases doc with
  | none => rfl
  | some doc =>
  dsimp only
  split
  · rfl
  cases (if F.root then none else E.json.parseUntrusted doc) with
  | none => rfl
  | some root =>
    dsimp only
    rw [val_bind]
    cases root with
    | object members =>
      dsimp only
      split
      · rfl
      split
      · rfl
      rw [← map_jwksAllocLogged]
      cases jwksAllocLogged F.alloc members.length with
      | none => rfl
      | some slots => exact jwks_fillTraced _ (val_keyvalStepLogged F) ..
    | _ => rfl

end NxeJwx
