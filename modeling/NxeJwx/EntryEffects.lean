/-
# What the parse of an entry does

The parse of one entry, by its events.  The parsers of public keys refuse an entry or make one
handle for it (`Builds`); the parser of secrets touches a buffer and makes none; a thumbprint
touches buffers only if it is that of a secret (`events_jwkThumbprintLogged`).

For the handles this comes down to `Effect`: an entry that is kept leaves its handle in its slot,
any other entry leaves none behind.  `effect_jwksStep` and `effect_keyvalStep` say that one turn
of either loop has such an effect.
-/
import NxeJwx.Erasure

namespace NxeJwx

open FillSlots Traced Ledger

variable {PKey : Type} {haveHmac : Bool} {E : Env PKey} {L : Leftovers} {F : ParseFaults}

/-! ## 1. Key types -/

/-- The end of the three parsers that build a handle. -/
def built (k : Slot PKey) (half : Bool) (i : Nat) (made : Option PKey) (kty : Kty) :
    Traced Event (Rc × Slot PKey) :=
  buildLogged half i made >>= fun pkey =>
    if pkey.isNone then return (.error, k.setPkey i pkey)
    else return (.ok, (k.setPkey i pkey).setKty kty)

/-- The parsers of public keys refuse an entry or come to that end. -/
inductive Builds (k : Slot PKey) (i : Nat) : Traced Event (Rc × Slot PKey) → Prop
  | refused {rc : Rc} (hrc : (rc == .ok) = false) : Builds k i (pure (rc, k))
  | built (half : Bool) (made : Option PKey) {kty : Kty} (hkty : kty ≠ .oct) :
      Builds k i (built k half i made kty)

theorem builds_parseRsa (f : EntryFaults) (i : Nat) (k : Slot PKey) (jwk : Json) :
    Builds k i (parseRsaLogged E L f i k jwk) := by
  unfold parseRsaLogged
  cases b64urlField E (f (.field (ascii "n"))) jwk (ascii "n") with
  | error | declined => exact .refused rfl
  | ok n =>
    dsimp only
    cases b64urlField E (f (.field (ascii "e"))) jwk (ascii "e") with
    | error | declined => exact .refused rfl
    | ok e =>
      dsimp only
      split
      · exact .refused rfl
      split
      · exact .refused rfl
      · exact .built _ _ Kty.noConfusion

theorem builds_parseEc (f : EntryFaults) (i : Nat) (k : Slot PKey) (jwk : Json) :
    Builds k i (parseEcLogged E L f i k jwk) := by
  unfold parseEcLogged
  split
  · exact .refused rfl
  cases lookupEcCurve k.key.crv with
  | none => exact .refused rfl
  | some curve =>
    dsimp only
    cases b64urlField E (f (.field (ascii "x"))) jwk (ascii "x") with
    | error | declined => exact .refused rfl
    | ok x =>
      dsimp only
      split
      · exact .refused rfl
      cases b64urlField E (f (.field (ascii "y"))) jwk (ascii "y") with
      | error | declined => exact .refused rfl
      | ok y =>
        dsimp only
        split
        · exact .refused rfl
        split
        · exact .refused rfl
        · exact .built _ _ Kty.noConfusion

theorem builds_parseOkp (f : EntryFaults) (i : Nat) (k : Slot PKey) (jwk : Json) :
    Builds k i (parseOkpLogged E f i k jwk) := by
  unfold parseOkpLogged
  split
  · exact .refused rfl
  cases lookupOkpCurve k.key.crv with
  | none => exact .refused rfl
  | some curve =>
    dsimp only
    cases b64urlField E (f (.field (ascii "x"))) jwk (ascii "x") with
    | error | declined => exact .refused rfl
    | ok x =>
      dsimp only
      split
      · exact .refused rfl
      · exact .built _ _ Kty.noConfusion

/-- Every key type but that of secrets is a public key or unknown. -/
theorem builds_parseKty {kty : Bytes} (h : ¬ (E.haveHmac && isName kty (ascii "oct")) = true)
    (f : EntryFaults) (i : Nat) (k : Slot PKey) (jwk : Json) :
    Builds k i (parseKtyLogged E L f i kty k jwk) := by
  unfold parseKtyLogged
  split
  · exact builds_parseRsa ..
  split
  · exact builds_parseEc ..
  split
  · exact builds_parseOkp ..
  · exact .refused rfl

theorem parseKtyLogged_oct (hmac : E.haveHmac = true) (f : EntryFaults) (i : Nat)
    (k : Slot PKey) (jwk : Json) :
    parseKtyLogged E L f i (ascii "oct") k jwk = parseOctLogged E L f i k jwk := by
  obtain ⟨-, -, -, -, -, -, hrsa, hec, hokp, hoct⟩ := isName_kty
  simp only [parseKtyLogged, hrsa, hec, hokp, hoct, hmac, Bool.false_eq_true, if_false,
    Bool.and_self, if_true]

/-! ## 2. Thumbprints -/

/-- The text that is hashed for a secret. -/
def octText (E : Env PKey) (secret : Bytes) : Bytes :=
  ascii "\x7b\"k\":\"" ++ E.b64.encode secret ++ ascii "\",\"kty\":\"oct\"\x7d"

/-- The digest of a text is computed. -/
def digested (E : Env PKey) (f : ThumbprintFaults) (text : Bytes) : Bool :=
  E.ossl.digestByName .sha256 && !f .digest && (E.ossl.digest .sha256 text).isSome

/-- Only the thumbprint of a secret leaves a trace. -/
theorem events_jwkThumbprintLogged (f : ThumbprintFaults) (i : Nat) {key : Key PKey}
    (hno : (E.haveHmac && key.kty == .oct) = false) :
    (jwkThumbprintLogged E f i key).events = [] := by
  have htext : (thumbprintTextLogged E f i { key with thumbprint := [] }).events = [] := by
    unfold thumbprintTextLogged
    cases hkty : key.kty with
    | rsa | ec | okp | unknown => rfl
    | oct =>
      rw [hkty] at hno
      have hmac : E.haveHmac = false := by simpa using hno
      dsimp only
      rw [hmac]
      rfl
  unfold jwkThumbprintLogged
  dsimp only
  rw [events_bind, htext, List.nil_append]
  cases (thumbprintTextLogged E f i { key with thumbprint := [] }).val with
  | declined | error => rfl
  | ok json =>
    dsimp only
    split
    · rfl
    cases (if f .digest then none else E.ossl.digest .sha256 json) with
    | none => rfl
    | some digest =>
      dsimp only
      rw [events_bind, cleanseText, hno]
      cases encodeB64url E (f .out) digest <;> rfl

/-- The events of the thumbprint of a secret. -/
theorem events_jwkThumbprintLogged_oct (hmac : E.haveHmac = true) (f : ThumbprintFaults) (i : Nat)
    {key : Key PKey} (hkty : key.kty = .oct) :
    (jwkThumbprintLogged E f i key).events =
      if f .first then []
      else .hold (.kB64 i) (E.b64.encode key.hmacSecret) ::
        if f .text then []
        else .hold (.json i) (octText E key.hmacSecret) ::
          .cleanse (.kB64 i) (E.b64.encode key.hmacSecret).length ::
          if digested E f (octText E key.hmacSecret) then
            [.cleanse (.json i) (octText E key.hmacSecret).length]
          else [] := by
  unfold jwkThumbprintLogged thumbprintTextLogged
  simp only [hkty, hmac, if_true, thumbprintOctLogged, encodeB64url]
  cases hfirst : f .first with
  | true => simp [Ret.ofOption]
  | false =>
    cases htext : f .text with
    | true => simp [Ret.ofOption]
    | false =>
      have hjson : ascii "\x7b\"k\":\"" ++ E.b64.encode key.hmacSecret ++
          ascii "\",\"kty\":\"oct\"\x7d" = octText E key.hmacSecret := rfl
      simp only [Bool.false_eq_true, if_false, events_bind, val_bind, events_pure, val_pure,
        events_emit, hjson, Ret.ofOption, List.nil_append, List.append_nil, List.cons_append]
      cases hname : E.ossl.digestByName .sha256 with
      | false => simp [digested, hname]
      | true =>
        cases hdigest : f .digest with
        | true => simp [digested, hdigest]
        | false =>
          cases hd : E.ossl.digest .sha256 (octText E key.hmacSecret) with
          | none => simp [digested, hd]
          | some digest =>
            have hyes : digested E f (octText E key.hmacSecret) = true := by
              simp [digested, hname, hdigest, hd]
            simp only [Bool.not_true, Bool.false_eq_true, if_false, events_bind, cleanseText, hmac,
              Bool.true_and, beq_self_eq_true, if_true, events_emit, hyes]
            cases f .out <;> simp

/-- A thumbprint leaves the handle and the secret of its key alone. -/
theorem jwkThumbprint_keeps (f : ThumbprintFaults) (key : Key PKey) :
    (jwkThumbprint E f key).2.pkey = key.pkey ∧
      (jwkThumbprint E f key).2.hmacSecret = key.hmacSecret := by
  obtain ⟨tp, heq, -⟩ := jwkThumbprint_eq E f key
  rw [heq]
  exact ⟨rfl, rfl⟩

/-! ## 3. Entries -/

/-- The entry has a key type, is for signing and has no empty kid, and its labels can be
copied. -/
structure Admitted (f : EntryFaults) (jwk : Json) (kty : Bytes) : Prop where
  kty_eq : jwk.stringAt (ascii "kty") = some kty
  use : jwk.stringAt (ascii "use") ≠ some (ascii "enc")
  kid : jwk.stringAt (ascii "kid") ≠ some []
  dupKid : dupStrToPool (f .dupKid) ((jwk.stringAt (ascii "kid")).getD []) ≠ none
  dupAlg : dupStrToPool (f .dupAlg) ((jwk.stringAt (ascii "alg")).getD []) ≠ none
  dupCrv : dupStrToPool (f .dupCrv) ((jwk.stringAt (ascii "crv")).getD []) ≠ none

/-- What is then done with it. -/
def admittedLogged (E : Env PKey) (L : Leftovers) (f : EntryFaults) (i : Nat) (kty : Bytes)
    (jwk : Json) : Traced Event (Rc × Slot PKey) := do
  let r ← parseKtyLogged E L f i kty (.ofKey (labelled jwk)) jwk
  if r.1 = .ok then
    let t ← jwkThumbprintLogged E (fun s => f (.thumbprint s)) i r.2.key
    return (.ok, { r.2 with key := t.2 })
  else return r

/-- Any other entry is refused before anything is made for it. -/
theorem parseOneKeyLogged_cases (E : Env PKey) (L : Leftovers) (f : EntryFaults) (i : Nat)
    (slot : Slot PKey) (jwk : Json) :
    (∃ kty, Admitted f jwk kty ∧
      parseOneKeyLogged E L f i slot jwk = admittedLogged E L f i kty jwk) ∨
    ((∀ kty, ¬ Admitted f jwk kty) ∧ ∃ rc key, (rc == Rc.ok) = false ∧
      parseOneKeyLogged E L f i slot jwk = pure (rc, .ofKey key)) := by
  unfold parseOneKeyLogged
  cases hkty : stringField jwk (ascii "kty") with
  | none =>
    exact .inr ⟨fun kty h => absurd (hkty.symm.trans h.kty_eq) (by simp), .declined, .zero, rfl,
      rfl⟩
  | some kty =>
    dsimp only
    split
    next hany =>
      obtain ⟨use, hu, hn⟩ := (Option.any_eq_true _ _).mp hany
      refine .inr ⟨fun _ h => h.use ?_, .declined, .zero, rfl, rfl⟩
      rw [← (isName_iff (by decide)).mp hn]
      exact hu
    next huse =>
    split
    next hany =>
      obtain ⟨kid, hk, hlen⟩ := (Option.any_eq_true _ _).mp hany
      refine .inr ⟨fun _ h => h.kid ?_, .declined, .zero, rfl, rfl⟩
      rw [← List.length_eq_zero_iff.mp (of_decide_eq_true hlen)]
      exact hk
    next hkid =>
    split
    next kid alg crv hdk hda hdc =>
      refine .inl ⟨kty, ⟨hkty, fun h => huse ?_, fun h => hkid ?_, ?_, ?_, ?_⟩, ?_⟩
      · have henc : isName (ascii "enc") (ascii "enc") = true := by decide
        simp [stringField, h, henc]
      · simp [stringField, h]
      · exact Option.ne_none_iff_exists'.mpr ⟨kid, hdk⟩
      · exact Option.ne_none_iff_exists'.mpr ⟨alg, hda⟩
      · exact Option.ne_none_iff_exists'.mpr ⟨crv, hdc⟩
      · rw [dupStrToPool_eq_some hdk, dupStrToPool_eq_some hda, dupStrToPool_eq_some hdc]
        rfl
    next hno =>
      refine .inr ⟨fun _ h => ?_, .error, _, rfl, rfl⟩
      obtain ⟨kid, hdk⟩ := Option.ne_none_iff_exists'.mp h.dupKid
      obtain ⟨alg, hda⟩ := Option.ne_none_iff_exists'.mp h.dupAlg
      obtain ⟨crv, hdc⟩ := Option.ne_none_iff_exists'.mp h.dupCrv
      exact hno kid alg crv hdk hda hdc

/-! ## 4. The ledger -/

/-- The entries of a trace in the ledger. -/
def books (tr : List Event) : List (Entry Resource) :=
  tr.filterMap fun
    | .ledger e => some e
    | _ => none

@[simp] theorem books_nil : books [] = [] := rfl

@[simp] theorem books_append (tr tr' : List Event) : books (tr ++ tr') = books tr ++ books tr' :=
  List.filterMap_append ..

@[simp] theorem books_ledger (e : Entry Resource) (tr : List Event) :
    books (.ledger e :: tr) = e :: books tr := rfl

/-- What an entry may do, from whether its slot is kept: it leaves its handle in the slot; or its
secret, which its buffer held; or nothing, having made no handle or having freed it. -/
inductive Effect (haveHmac : Bool) (i : Nat) : Bool → Slot PKey → List Event → Prop
  | pkey {k : Slot PKey} {evs : List Event} (pkeyOf : k.pkeyOf = some i)
      (pkey : k.key.pkey.isSome = true) (secret : k.key.hmacSecret = [])
      (books : books evs = [.acquire (.pkey i)]) : Effect haveHmac i true k evs
  | secret {k : Slot PKey} {evs : List Event} (pkeyOf : k.pkeyOf = none)
      (pkey : k.key.pkey = none) (hmac : haveHmac = true) (secretOf : k.secretOf = some i)
      (held : .hold (.secret i) k.key.hmacSecret ∈ evs) (books : books evs = []) :
      Effect haveHmac i true k evs
  | nothing {k : Slot PKey} {evs : List Event} (books : books evs = []) :
      Effect haveHmac i false k evs
  | freed {k : Slot PKey} {evs : List Event}
      (books : books evs = [.acquire (.pkey i), .release (.pkey i)]) : Effect haveHmac i false k evs

/-- Events on memory alone change nothing about it, and neither does a thumbprint. -/
theorem Effect.append {i : Nat} {kept : Bool} {k k' : Slot PKey} {evs evs' : List Event}
    (h : Effect haveHmac i kept k evs) (hevs : books evs' = []) (hpkeyOf : k'.pkeyOf = k.pkeyOf)
    (hsecretOf : k'.secretOf = k.secretOf) (hpkey : k'.key.pkey = k.key.pkey)
    (hsecret : k'.key.hmacSecret = k.key.hmacSecret) :
    Effect haveHmac i kept k' (evs ++ evs') := by
  cases h with
  | pkey pkeyOf pkey secret books =>
    exact .pkey (hpkeyOf.trans pkeyOf) (hpkey ▸ pkey) (hsecret.trans secret) (by simp [books, hevs])
  | secret pkeyOf pkey hmac secretOf held books =>
    exact .secret (hpkeyOf.trans pkeyOf) (hpkey.trans pkey) hmac (hsecretOf.trans secretOf)
      (List.mem_append_left _ (hsecret ▸ held)) (by simp [books, hevs])
  | nothing books => exact .nothing (by simp [books, hevs])
  | freed books => exact .freed (by simp [books, hevs])

/-- The effect of a parser of an entry. -/
def Does (haveHmac : Bool) (i : Nat) (x : Traced Event (Rc × Slot PKey)) : Prop :=
  Effect haveHmac i (x.val.1 == .ok) x.val.2 x.events

theorem does_return {i : Nat} {rc : Rc} (h : (rc == .ok) = false) (k : Slot PKey) :
    Does haveHmac i (return (rc, k)) := by
  unfold Does
  rw [val_pure, h]
  exact .nothing rfl

/-- On a slot without a secret, this has its effect. -/
theorem Builds.does {k : Slot PKey} {i : Nat} {x : Traced Event (Rc × Slot PKey)}
    (h : Builds k i x) (hk : k.key.hmacSecret = []) : Does haveHmac i x := by
  cases h with
  | refused hrc => exact does_return hrc k
  | built half made hkty =>
    cases made with
    | some pkey => exact .pkey rfl rfl hk rfl
    | none =>
      cases half with
      | false => exact .nothing rfl
      | true => exact .freed rfl

/-- Reading a secret makes no entry in the ledger, and what it returns is in the buffer. -/
theorem events_b64urlFieldLogged (fault : Bool) (i : Nat) (jwk : Json) (name : Bytes) :
    books (b64urlFieldLogged E L fault i jwk name).events = [] ∧
      ∀ out, (b64urlFieldLogged E L fault i jwk name).val = .ok out →
        .hold (.secret i) out ∈ (b64urlFieldLogged E L fault i jwk name).events := by
  unfold b64urlFieldLogged
  cases jwk.stringAt name with
  | none => exact ⟨rfl, fun out h => absurd h (by simp)⟩
  | some src =>
    dsimp only
    split
    · exact ⟨rfl, fun out h => absurd h (by simp)⟩
    split
    · exact ⟨rfl, fun out h => absurd h (by simp)⟩
    cases E.b64.decode src with
    | none => exact ⟨rfl, fun out h => absurd h (by simp)⟩
    | some out =>
      refine ⟨rfl, ?_⟩
      intro out' h
      obtain rfl : out = out' := Ret.ok.inj h
      exact List.mem_cons_self

theorem does_parseOct {k : Slot PKey} (hpkeyOf : k.pkeyOf = none) (hpkey : k.key.pkey = none)
    (hmac : haveHmac = true) (f : EntryFaults) (i : Nat) (jwk : Json) :
    Does haveHmac i (parseOctLogged E L f i k jwk) := by
  obtain ⟨hbooks, hheld⟩ := events_b64urlFieldLogged (E := E) (L := L)
    (f (.field (ascii "k"))) i jwk (ascii "k")
  unfold Does parseOctLogged
  rw [val_bind, events_bind]
  cases hret : (b64urlFieldLogged E L (f (.field (ascii "k"))) i jwk (ascii "k")).val with
  | error | declined => exact .nothing (by simp [hbooks])
  | ok secret =>
    dsimp only
    split
    · exact .nothing (by simp [hbooks])
    · exact .secret hpkeyOf hpkey hmac rfl (List.mem_append_left _ (hheld secret hret))
        (by simp [hbooks])

/-- The switch, on a slot that has labels only. -/
theorem does_parseKty {key : Key PKey} (hpkey : key.pkey = none) (hsecret : key.hmacSecret = [])
    (f : EntryFaults) (i : Nat) (kty : Bytes) (jwk : Json) :
    Does E.haveHmac i (parseKtyLogged E L f i kty (.ofKey key) jwk) := by
  by_cases h : (E.haveHmac && isName kty (ascii "oct")) = true
  · obtain ⟨hmac, hname⟩ := Bool.and_eq_true_iff.mp h
    obtain rfl := (isName_iff (by decide)).mp hname
    rw [parseKtyLogged_oct hmac]
    exact does_parseOct rfl hpkey hmac f i jwk
  · exact (builds_parseKty h f i _ jwk).does hsecret

/-- A thumbprint makes no entry in the ledger. -/
theorem books_jwkThumbprintLogged (f : ThumbprintFaults) (i : Nat) (key : Key PKey) :
    books (jwkThumbprintLogged E f i key).events = [] := by
  cases hsecret : (E.haveHmac && key.kty == .oct) with
  | false =>
    rw [events_jwkThumbprintLogged f i hsecret]
    rfl
  | true =>
    obtain ⟨hmac, hkty⟩ := Bool.and_eq_true_iff.mp hsecret
    rw [events_jwkThumbprintLogged_oct hmac f i (eq_of_beq hkty)]
    split
    · rfl
    split
    · rfl
    split <;> rfl

theorem does_parseOneKey (f : EntryFaults) (i : Nat) (slot : Slot PKey) (jwk : Json) :
    Does E.haveHmac i (parseOneKeyLogged E L f i slot jwk) := by
  rcases parseOneKeyLogged_cases E L f i slot jwk with ⟨kty, -, heq⟩ | ⟨-, rc, key, hrc, heq⟩
  · rw [heq]
    have hkty : Does E.haveHmac i (parseKtyLogged E L f i kty (.ofKey (labelled jwk)) jwk) :=
      does_parseKty rfl rfl f i kty jwk
    unfold Does at hkty ⊢
    rw [admittedLogged, val_bind, events_bind]
    split
    next hok =>
      obtain ⟨hpkey, hsecret⟩ := jwkThumbprint_keeps (E := E) (fun s => f (.thumbprint s))
        (parseKtyLogged E L f i kty (.ofKey (labelled jwk)) jwk).val.2.key
      rw [hok] at hkty
      rw [val_bind, events_bind, val_pure, events_pure, List.append_nil]
      exact hkty.append (books_jwkThumbprintLogged ..) rfl rfl
        (by rw [val_jwkThumbprintLogged]; exact hpkey)
        (by rw [val_jwkThumbprintLogged]; exact hsecret)
    · rw [val_pure, events_pure, List.append_nil]
      exact hkty
  · rw [heq]
    exact does_return hrc _

/-- One turn of the loop over a JWKS. -/
theorem effect_jwksStep (entry : Json × Nat) (slot : Slot PKey) :
    Effect E.haveHmac entry.2 ((jwksStepLogged E L F entry slot).val.1 == .keep)
      (jwksStepLogged E L F entry slot).val.2 (jwksStepLogged E L F entry slot).events := by
  unfold jwksStepLogged
  split
  · exact .nothing rfl
  have h := does_parseOneKey (E := E) (L := L) (F.entry entry.2) entry.2 slot entry.1
  unfold Does at h
  rw [val_bind, events_bind]
  cases hr : (parseOneKeyLogged E L (F.entry entry.2) entry.2 slot entry.1).val with
  | mk rc k =>
    rw [hr] at h
    cases rc <;> (rw [events_pure, List.append_nil]; exact h)

/-- One turn of the loop over a keyval document, in a zeroed slot. -/
theorem effect_keyvalStep (entry : (Bytes × Json) × Nat) :
    Effect E.haveHmac entry.2 ((keyvalStepLogged E F entry (.zero : Slot PKey)).val.1 == .keep)
      (keyvalStepLogged E F entry .zero).val.2 (keyvalStepLogged E F entry .zero).events := by
  unfold keyvalStepLogged
  dsimp only
  split
  · exact .nothing rfl
  cases entry.1.2.stringOf with
  | none => exact .nothing rfl
  | some val =>
    dsimp only
    split
    · exact .nothing rfl
    cases loadPemPubkey E (F.entry entry.2 .bio) val with
    | none => exact .nothing rfl
    | some pkey =>
      dsimp only
      rw [val_bind, events_bind]
      cases hcrv : keyvalCrv E.ossl pkey (Slot.zero : Slot PKey).key with
      | none => exact .freed rfl
      | some k =>
        have hsecret : k.hmacSecret = [] := by
          have hzero : keyvalCrv E.ossl pkey (Slot.zero : Slot PKey).key = _ := keyvalCrv_zero
          rw [hzero] at hcrv
          obtain ⟨crv, -, rfl⟩ := Option.map_eq_some_iff.mp hcrv
          rfl
        dsimp only
        cases dupStrToPool (F.entry entry.2 .dupKid) entry.1.1 with
        | none => exact .freed rfl
        | some kid =>
          dsimp only
          rw [val_bind, events_bind, val_pure, events_pure, List.append_nil,
            val_jwkThumbprintLogged]
          obtain ⟨hpkey', hsecret'⟩ := jwkThumbprint_keeps (E := E)
            (fun s => F.entry entry.2 (.thumbprint s))
            { k with kty := ktyFromPkey E.ossl pkey, kid := kid, pkey := some pkey }
          refine .pkey rfl ?_ (hsecret'.trans hsecret) ?_
          · exact (congrArg Option.isSome hpkey').trans rfl
          · rw [books_append, books_jwkThumbprintLogged]
            rfl

end NxeJwx
