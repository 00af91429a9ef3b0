/-
# What a token owns

`nxe_jwx_decode` and `nxe_jwx_token_cleanup` once more, with what they do to the two JSON roots of
a token and to the buffers that its octets get into.

The cleanup handler is registered before anything is decoded, on a token that is still zeroed, so
a call that returns `NULL` may leave a token in the pool that is filled in up to the step that
failed (`Decoding`).  Whatever fails, the books after the call hold the roots that this token
points to and nothing else (`holds_decodeLogged`), and the handler settles them.  Without its
events the call is `decode` (`val_decodeLogged`).
-/
import NxeJwx.Decode
import NxeJwx.Lib.Custody
import NxeJwx.Lib.Trace

namespace NxeJwx

open Traced Ledger

variable {PKey : Type}

/-! ## 1. The code -/

/-- The JSON roots of a token. -/
inductive TokenRoot where
  | header
  | payload
  deriving DecidableEq, Repr

/-- The buffers of `nxe_jwx_decode_b64url`. -/
inductive TokenBuffer where
  | headerRaw
  | payloadRaw
  | signature
  deriving DecidableEq, Repr

/-- A root is made or freed, octets get into a buffer, or `OPENSSL_cleanse` is called on one. -/
inductive TokenEvent where
  | ledger (e : Entry TokenRoot)
  | hold (b : TokenBuffer) (octets : Bytes)
  | cleanse (b : TokenBuffer) (len : Nat)
  deriving DecidableEq, Repr

/-- `struct nxe_jwx_token_s` while it is filled in. -/
structure TokenCell where
  header : Option Json
  payload : Option Json
  alg : Bytes
  kid : Bytes
  signingInput : Bytes
  signature : Bytes

/-- A zeroed token. -/
def TokenCell.zero : TokenCell := ⟨none, none, [], [], [], []⟩

/-- A token that is filled in. -/
def TokenCell.token (c : TokenCell) : Option Token :=
  match c.header, c.payload with
  | some header, some payload => some ⟨header, payload, c.alg, c.kid, c.signingInput, c.signature⟩
  | _, _ => none

/-- What decoding leaves: the token that is registered with the pool, if it got that far, and
whether the call returned it. -/
structure Decoding where
  cell : Option TokenCell
  returned : Bool

/-- The call failed before it registered a token. -/
def Decoding.nothing : Decoding := ⟨none, false⟩

/-- The call failed with the token registered. -/
def Decoding.failed (c : TokenCell) : Decoding := ⟨some c, false⟩

/-- The token as it is returned. -/
def Decoding.token (d : Decoding) : Option Token :=
  if d.returned then d.cell.bind TokenCell.token else none

/-- `nxe_jwx_decode_b64url`.  `left` is what a decoder that rejects its input has written. -/
def decodeB64urlLogged (E : Env PKey) (left : Bytes → Bytes) (fault : Bool) (b : TokenBuffer)
    (src : Bytes) : Traced TokenEvent (Option Bytes) :=
  if fault then return none
  else
    match E.b64.decode src with
    | none => do
      emit (.hold b (left src))
      return none
    | some out => do
      emit (.hold b out)
      return some out

/-- `nxe_jwx_parse_json_object`. -/
def parseJsonObjectLogged (E : Env PKey) (fault : Bool) (root : TokenRoot) (raw : Bytes) :
    Traced TokenEvent (Option Json) :=
  match (if fault then none else E.json.parseUntrusted raw) with
  | none => return none
  | some json => do
    emit (.ledger (.acquire root))
    if json.isObject then return some json
    else do
      emit (.ledger (.release root))
      return none

/-- The header and the payload alike: the segment is decoded and parsed, and its octets are
cleansed whether or not they parse. -/
def readSegmentLogged (E : Env PKey) (left : Bytes → Bytes) (bufFault jsonFault : Bool)
    (b : TokenBuffer) (root : TokenRoot) (src : Bytes) : Traced TokenEvent (Option Json) := do
  match ← decodeB64urlLogged E left bufFault b src with
  | none => return none
  | some raw =>
    let json ← parseJsonObjectLogged E jsonFault root raw
    emit (.cleanse b raw.length)
    return json

/-- The signature segment, which may be empty. -/
def readSignatureLogged (E : Env PKey) (left : Bytes → Bytes) (fault : Bool) (src : Bytes) :
    Traced TokenEvent (Option Bytes) :=
  if src.length = 0 then return some []
  else decodeB64urlLogged E left fault .signature src

/-- `nxe_jwx_decode`. -/
def decodeLogged (E : Env PKey) (left : Bytes → Bytes) (f : DecodeFaults)
    (tokenStr : Option Bytes) (pool : Option Pool) : Traced TokenEvent Decoding :=
  match pool, tokenStr with
  | none, _ => return .nothing
  | some _, none => return .nothing
  | some _, some str =>
    if str.length = 0 then return .nothing
    else if str.length > maxJwtSize then return .nothing
    else
      match splitSegments str with
      | none => return .nothing
      | some seg =>
        if f .token || f .cleanup then return .nothing
        else if f .signingInput then return .failed .zero
        else do
          let cell : TokenCell := { TokenCell.zero with signingInput := seg.signing }
          match ← readSegmentLogged E left (f .headerBuf) (f .headerJson) .headerRaw .header
              seg.header with
          | none => return .failed cell
          | some header =>
            let cell := { cell with header := some header }
            match ← readSegmentLogged E left (f .payloadBuf) (f .payloadJson) .payloadRaw .payload
                seg.payload with
            | none => return .failed cell
            | some payload =>
              let cell := { cell with payload := some payload }
              match ← readSignatureLogged E left (f .signatureBuf) seg.signature with
              | none => return .failed cell
              | some signature =>
                return ⟨some { cell with
                  signature := signature
                  alg := readHeaderString header (ascii "alg")
                  kid := readHeaderString header (ascii "kid") }, true⟩

/-- A root is freed if it is there. -/
def freeRoot (root : TokenRoot) (json : Option Json) : Traced TokenEvent PUnit :=
  if json.isSome then emit (.ledger (.release root)) else return ⟨⟩

/-- The octets of the signature are cleansed if there are some. -/
def cleanseSignature (signature : Bytes) : Traced TokenEvent PUnit :=
  if signature.length > 0 then emit (.cleanse .signature signature.length) else return ⟨⟩

/-- `nxe_jwx_token_cleanup`. -/
def tokenCleanup (c : TokenCell) : Traced TokenEvent TokenCell := do
  freeRoot .header c.header
  freeRoot .payload c.payload
  cleanseSignature c.signature
  return { c with header := none, payload := none }

/-! ## 2. Without its events, the call is `decode` -/

variable {E : Env PKey} {left : Bytes → Bytes}

theorem val_decodeB64urlLogged (fault : Bool) (b : TokenBuffer) (src : Bytes) :
    (decodeB64urlLogged E left fault b src).val = decodeB64url E fault src := by
  unfold decodeB64urlLogged decodeB64url
  split
  · rfl
  · cases E.b64.decode src <;> rfl

theorem val_parseJsonObjectLogged (fault : Bool) (root : TokenRoot) (raw : Bytes) :
    (parseJsonObjectLogged E fault root raw).val = parseJsonObject E fault raw := by
  unfold parseJsonObjectLogged parseJsonObject
  cases (if fault then none else E.json.parseUntrusted raw) with
  | none => rfl
  | some json =>
    dsimp only
    rw [val_bind]
    split <;> rfl

theorem val_readSegmentLogged (bufFault jsonFault : Bool) (b : TokenBuffer) (root : TokenRoot)
    (src : Bytes) : (readSegmentLogged E left bufFault jsonFault b root src).val =
      (decodeB64url E bufFault src).bind (parseJsonObject E jsonFault) := by
  unfold readSegmentLogged
  rw [val_bind, val_decodeB64urlLogged]
  cases decodeB64url E bufFault src with
  | none => rfl
  | some raw => exact val_parseJsonObjectLogged jsonFault root raw

theorem val_readSignatureLogged (fault : Bool) (src : Bytes) :
    (readSignatureLogged E left fault src).val =
      if src.length = 0 then some [] else decodeB64url E fault src := by
  unfold readSignatureLogged
  split
  · rfl
  · exact val_decodeB64urlLogged ..

/-- **Decoding, without its events.** -/
theorem val_decodeLogged (f : DecodeFaults) (tokenStr : Option Bytes) (pool : Option Pool) :
    (decodeLogged E left f tokenStr pool).val.token = decode E f tokenStr pool := by
  unfold decodeLogged decode
  cases pool with
  | none => rfl
  | some pool =>
  cases tokenStr with
  | none => rfl
  | some str =>
  dsimp only
  split
  · rfl
  split
  · rfl
  cases splitSegments str with
  | none => rfl
  | some seg =>
    dsimp only
    cases hreg : (f .token || f .cleanup) with
    | true => rfl
    | false =>
    cases hsign : f .signingInput with
    | true => rfl
    | false =>
    rw [Bool.or_self, if_neg (by decide), if_neg (by decide), if_neg (by decide), val_bind,
      val_readSegmentLogged]
    cases decodeB64url E (f .headerBuf) seg.header with
    | none => rfl
    | some headerRaw =>
    dsimp only [Option.bind_some]
    cases parseJsonObject E (f .headerJson) headerRaw with
    | none => rfl
    | some header =>
    dsimp only
    rw [val_bind, val_readSegmentLogged]
    cases decodeB64url E (f .payloadBuf) seg.payload with
    | none => rfl
    | some payloadRaw =>
    dsimp only [Option.bind_some]
    cases parseJsonObject E (f .payloadJson) payloadRaw with
    | none => rfl
    | some payload =>
    dsimp only
    rw [val_bind, val_readSignatureLogged]
    cases (if seg.signature.length = 0 then some [] else
      decodeB64url E (f .signatureBuf) seg.signature) <;> rfl

/-- A token that is returned is filled in. -/
def Decoding.Complete (d : Decoding) : Prop :=
  d.returned = true → ∃ c t, d.cell = some c ∧ c.token = some t

theorem Decoding.complete_failed (c : TokenCell) : (Decoding.failed c).Complete :=
  fun h => Bool.noConfusion h

theorem Decoding.complete_nothing : Decoding.nothing.Complete := fun h => Bool.noConfusion h

theorem complete_decodeLogged (f : DecodeFaults) (tokenStr : Option Bytes) (pool : Option Pool) :
    (decodeLogged E left f tokenStr pool).val.Complete := by
  unfold decodeLogged
  cases pool with
  | none => exact Decoding.complete_nothing
  | some pool =>
  cases tokenStr with
  | none => exact Decoding.complete_nothing
  | some str =>
  dsimp only
  split
  · exact Decoding.complete_nothing
  split
  · exact Decoding.complete_nothing
  cases splitSegments str with
  | none => exact Decoding.complete_nothing
  | some seg =>
    dsimp only
    split
    · exact Decoding.complete_nothing
    split
    · exact Decoding.complete_failed _
    rw [val_bind]
    cases (readSegmentLogged E left (f .headerBuf) (f .headerJson) .headerRaw .header
        seg.header).val with
    | none => exact Decoding.complete_failed _
    | some header =>
      dsimp only
      rw [val_bind]
      cases (readSegmentLogged E left (f .payloadBuf) (f .payloadJson) .payloadRaw .payload
          seg.payload).val with
      | none => exact Decoding.complete_failed _
      | some payload =>
        dsimp only
        rw [val_bind]
        cases (readSignatureLogged E left (f .signatureBuf) seg.signature).val with
        | none => exact Decoding.complete_failed _
        | some signature => exact fun _ => ⟨_, _, rfl, rfl⟩

/-! ## 3. The books -/

/-- The entries of a trace in the ledger. -/
def rootBooks (tr : List TokenEvent) : List (Entry TokenRoot) :=
  tr.filterMap fun
    | .ledger e => some e
    | _ => none

@[simp] theorem rootBooks_nil : rootBooks [] = [] := rfl

@[simp] theorem rootBooks_append (tr tr' : List TokenEvent) :
    rootBooks (tr ++ tr') = rootBooks tr ++ rootBooks tr' := List.filterMap_append ..

@[simp] theorem rootBooks_ledger (e : Entry TokenRoot) (tr : List TokenEvent) :
    rootBooks (.ledger e :: tr) = e :: rootBooks tr := rfl

@[simp] theorem rootBooks_hold (b : TokenBuffer) (octets : Bytes) (tr : List TokenEvent) :
    rootBooks (.hold b octets :: tr) = rootBooks tr := rfl

@[simp] theorem rootBooks_cleanse (b : TokenBuffer) (len : Nat) (tr : List TokenEvent) :
    rootBooks (.cleanse b len :: tr) = rootBooks tr := rfl

/-- A root, if it is there. -/
def rootOf (root : TokenRoot) (json : Option Json) : List TokenRoot :=
  if json.isSome then [root] else []

/-- The roots that a token points to. -/
def TokenCell.roots (c : TokenCell) : List TokenRoot :=
  rootOf .header c.header ++ rootOf .payload c.payload

/-- The roots that decoding leaves to the cleanup handler. -/
def Decoding.roots (d : Decoding) : List TokenRoot := (d.cell.map TokenCell.roots).getD []

theorem rootBooks_decodeB64url (fault : Bool) (b : TokenBuffer) (src : Bytes) :
    rootBooks (decodeB64urlLogged E left fault b src).events = [] := by
  unfold decodeB64urlLogged
  split
  · rfl
  · cases E.b64.decode src <;> rfl

theorem rootBooks_readSignature (fault : Bool) (src : Bytes) :
    rootBooks (readSignatureLogged E left fault src).events = [] := by
  unfold readSignatureLogged
  split
  · rfl
  · exact rootBooks_decodeB64url ..

/-- A document that is an object is handed on; any other is freed on the spot. -/
theorem holds_parseJsonObject {tr : List (Entry TokenRoot)} {held : List TokenRoot}
    (h : Holds tr held) (fault : Bool) {root : TokenRoot} (hfresh : about root tr = [])
    (raw : Bytes) :
    Holds (tr ++ rootBooks (parseJsonObjectLogged E fault root raw).events)
      (held ++ rootOf root (parseJsonObjectLogged E fault root raw).val) := by
  unfold parseJsonObjectLogged
  cases (if fault then none else E.json.parseUntrusted raw) with
  | none => simpa [rootOf] using h
  | some json =>
    dsimp only
    rw [val_bind, events_bind]
    split
    · exact h.acquire hfresh
    · simpa [rootOf] using h.bounce hfresh

/-- A segment, likewise. -/
theorem holds_readSegment {tr : List (Entry TokenRoot)} {held : List TokenRoot}
    (h : Holds tr held) (bufFault jsonFault : Bool) (b : TokenBuffer) (root : TokenRoot)
    (hfresh : about root tr = []) (src : Bytes) :
    Holds (tr ++ rootBooks (readSegmentLogged E left bufFault jsonFault b root src).events)
      (held ++ rootOf root (readSegmentLogged E left bufFault jsonFault b root src).val) := by
  unfold readSegmentLogged
  rw [val_bind, events_bind, rootBooks_append, rootBooks_decodeB64url, List.nil_append]
  cases (decodeB64urlLogged E left bufFault b src).val with
  | none => simpa [rootOf] using h
  | some raw =>
    simpa using holds_parseJsonObject (E := E) h jsonFault hfresh raw

/-- What a segment does to its own root says nothing about the other one. -/
theorem about_readSegment {root root' : TokenRoot} (hne : root ≠ root') (bufFault jsonFault : Bool)
    (b : TokenBuffer) (src : Bytes) :
    about root' (rootBooks (readSegmentLogged E left bufFault jsonFault b root src).events) =
      [] := by
  unfold readSegmentLogged
  rw [events_bind, rootBooks_append, rootBooks_decodeB64url, List.nil_append]
  cases (decodeB64urlLogged E left bufFault b src).val with
  | none => rfl
  | some raw =>
    dsimp only
    unfold parseJsonObjectLogged
    cases (if jsonFault then none else E.json.parseUntrusted raw) with
    | none => rfl
    | some json =>
      dsimp only
      cases hobj : json.isObject <;>
        simp [about_acquire_ne hne, about_release_ne hne]

/-- **The books of a call.**  Whichever steps fail, the call holds the roots that the token it
leaves behind points to, and no others. -/
theorem holds_decodeLogged (f : DecodeFaults) (tokenStr : Option Bytes) (pool : Option Pool) :
    Holds (rootBooks (decodeLogged E left f tokenStr pool).events)
      (decodeLogged E left f tokenStr pool).val.roots := by
  unfold decodeLogged
  cases pool with
  | none => exact holds_nil
  | some pool =>
  cases tokenStr with
  | none => exact holds_nil
  | some str =>
  dsimp only
  split
  · exact holds_nil
  split
  · exact holds_nil
  cases splitSegments str with
  | none => exact holds_nil
  | some seg =>
    dsimp only
    split
    · exact holds_nil
    split
    · exact holds_nil
    rw [val_bind, events_bind, rootBooks_append]
    obtain ⟨header, hread⟩ : ∃ x, x = readSegmentLogged E left (f .headerBuf) (f .headerJson)
      .headerRaw .header seg.header := ⟨_, rfl⟩
    have hheader : Holds (rootBooks header.events) (rootOf .header header.val) := by
      rw [hread]
      exact holds_readSegment holds_nil _ _ _ _ rfl _
    have hother : about .payload (rootBooks header.events) = [] := by
      rw [hread]
      exact about_readSegment (by decide) _ _ _ _
    rw [← hread]
    cases hval : header.val with
    | none =>
      rw [hval] at hheader
      rw [events_pure, rootBooks_nil, List.append_nil]
      exact hheader
    | some json =>
      dsimp only
      rw [hval] at hheader
      rw [val_bind, events_bind, rootBooks_append]
      obtain ⟨payload, hread⟩ : ∃ x, x = readSegmentLogged E left (f .payloadBuf)
        (f .payloadJson) .payloadRaw .payload seg.payload := ⟨_, rfl⟩
      have hpayload : Holds (rootBooks header.events ++ rootBooks payload.events)
          ([.header] ++ rootOf .payload payload.val) := by
        rw [hread]
        exact holds_readSegment hheader _ _ _ _ hother _
      rw [← hread]
      cases hval' : payload.val with
      | none =>
        rw [hval'] at hpayload
        rw [events_pure, rootBooks_nil, List.append_nil]
        exact hpayload
      | some json' =>
        dsimp only
        rw [hval'] at hpayload
        rw [val_bind, events_bind, rootBooks_append, rootBooks_readSignature, List.nil_append]
        cases (readSignatureLogged E left (f .signatureBuf) seg.signature).val <;>
          (rw [events_pure, rootBooks_nil, List.append_nil]; exact hpayload)

/-- The handler frees the roots that are there. -/
theorem rootBooks_tokenCleanup (c : TokenCell) :
    rootBooks (tokenCleanup c).events = c.roots.map .release := by
  have hsign : rootBooks (cleanseSignature c.signature).events = [] := by
    unfold cleanseSignature
    split <;> rfl
  simp only [tokenCleanup, events_bind, events_pure, rootBooks_append, hsign, freeRoot,
    TokenCell.roots, rootOf, List.append_nil]
  cases c.header <;> cases c.payload <;> rfl

end NxeJwx
