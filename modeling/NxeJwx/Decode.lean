/-
# Decoding a compact token

`nxe_jwx_decode.c`.  The splitter walks the token once and remembers the first two dots; the
decoder copies the bytes before the second dot as the signing input, decodes the header and
the payload and parses both, and decodes the signature segment when there is one.

Every step of the decoder that can fail for want of memory is a `DecodeStep`; which of them
do fail in a run is an argument of `decode`.
-/
import NxeJwx.Env
import NxeJwx.Lib.Separator

namespace NxeJwx

/-- `struct nxe_jwx_token_s`.  An empty `alg` or `kid` stands for one that the header does
not have as a string. -/
structure Token where
  header : Json
  payload : Json
  alg : Bytes
  kid : Bytes
  signingInput : Bytes
  signature : Bytes

/-- `nxe_jwx_token_alg`. -/
def tokenAlg (token : Option Token) : Option Bytes :=
  match token with
  | none => none
  | some t => if t.alg.length = 0 then none else some t.alg

/-- `nxe_jwx_token_kid`. -/
def tokenKid (token : Option Token) : Option Bytes :=
  match token with
  | none => none
  | some t => if t.kid.length = 0 then none else some t.kid

theorem view_eq_some_iff {s v : Bytes} :
    (if s.length = 0 then none else some s) = some v ↔ s = v ∧ v ≠ [] := by
  by_cases h : s = []
  · subst h
    simp only [List.length_nil, if_true]
    exact ⟨fun he => absurd he (by simp), fun ⟨e, hne⟩ => absurd e.symm hne⟩
  · rw [if_neg (fun e => h (List.length_eq_zero_iff.mp e)), Option.some.injEq]
    exact ⟨fun e => ⟨e, e ▸ h⟩, fun e => e.1⟩

theorem view_eq_none_iff {s : Bytes} :
    (if s.length = 0 then none else some s) = none ↔ s = [] := by
  simp

/-- The accessors show a non-empty string and nothing else. -/
theorem tokenAlg_eq_some_iff {t : Token} {v : Bytes} :
    tokenAlg (some t) = some v ↔ t.alg = v ∧ v ≠ [] := view_eq_some_iff

theorem tokenAlg_eq_none_iff {t : Token} : tokenAlg (some t) = none ↔ t.alg = [] :=
  view_eq_none_iff

theorem tokenKid_eq_some_iff {t : Token} {v : Bytes} :
    tokenKid (some t) = some v ↔ t.kid = v ∧ v ≠ [] := view_eq_some_iff

/-! ## 1. Splitting -/

/-- The four segments `nxe_jwx_split_segments` fills in. -/
structure Segments where
  header : Bytes
  payload : Bytes
  signing : Bytes
  signature : Bytes
  deriving DecidableEq, Repr

/-- The separator, `.`. -/
def dot : UInt8 := 46

/-- The loop of `nxe_jwx_split_segments` from position `q` on: the positions of the first two
dots, `none` when there is a third. -/
def scanDots : Bytes → Nat → Option Nat → Option Nat → Option (Option Nat × Option Nat)
  | [], _, dot1, dot2 => some (dot1, dot2)
  | c :: cs, q, dot1, dot2 =>
    if c ≠ dot then scanDots cs (q + 1) dot1 dot2
    else
      match dot1, dot2 with
      | none, dot2 => scanDots cs (q + 1) (some q) dot2
      | some d1, none => scanDots cs (q + 1) (some d1) (some q)
      | some _, some _ => none

/-- `nxe_jwx_split_segments`. -/
def splitSegments (token : Bytes) : Option Segments :=
  match scanDots token 0 none none with
  | some (some dot1, some dot2) =>
    let header := token.take dot1
    let payload := (token.drop (dot1 + 1)).take (dot2 - dot1 - 1)
    let signing := token.take dot2
    let signature := token.drop (dot2 + 1)
    if header.length = 0 ∨ payload.length = 0 then none
    else if header.length > maxJwtHeader then none
    else some ⟨header, payload, signing, signature⟩
  | _ => none

/-! ## 2. Decoding -/

/-- The steps of `nxe_jwx_decode` that can fail for want of memory. -/
inductive DecodeStep where
  | token
  | cleanup
  | signingInput
  | headerBuf
  | headerJson
  | payloadBuf
  | payloadJson
  | signatureBuf
  deriving DecidableEq, Repr

/-- Which of these steps fail. -/
abbrev DecodeFaults := DecodeStep → Bool

/-- No step fails. -/
def noDecodeFaults : DecodeFaults := fun _ => false

variable {PKey : Type}

/-- `nxe_jwx_decode_b64url`, with the fault of its buffer. -/
def decodeB64url (E : Env PKey) (fault : Bool) (src : Bytes) : Option Bytes :=
  if fault then none else E.b64.decode src

/-- `nxe_jwx_parse_json_object`, with the fault of the parser. -/
def parseJsonObject (E : Env PKey) (fault : Bool) (raw : Bytes) : Option Json :=
  match (if fault then none else E.json.parseUntrusted raw) with
  | none => none
  | some json => if json.isObject then some json else none

/-- `nxe_jwx_read_header_string`. -/
def readHeaderString (header : Json) (key : Bytes) : Bytes := (header.stringAt key).getD []

/-- `nxe_jwx_decode`. -/
def decode (E : Env PKey) (f : DecodeFaults) (tokenStr : Option Bytes) (pool : Option Pool) :
    Option Token :=
  match pool, tokenStr with
  | none, _ => none
  | some _, none => none
  | some _, some str =>
    if str.length = 0 then none
    else if str.length > maxJwtSize then none
    else
      match splitSegments str with
      | none => none
      | some seg =>
        if f .token || f .cleanup || f .signingInput then none
        else
          match decodeB64url E (f .headerBuf) seg.header with
          | none => none
          | some headerRaw =>
            match parseJsonObject E (f .headerJson) headerRaw with
            | none => none
            | some header =>
              match decodeB64url E (f .payloadBuf) seg.payload with
              | none => none
              | some payloadRaw =>
                match parseJsonObject E (f .payloadJson) payloadRaw with
                | none => none
                | some payload =>
                  match (if seg.signature.length = 0 then some []
                      else decodeB64url E (f .signatureBuf) seg.signature) with
                  | none => none
                  | some signature =>
                    some {
                      header := header
                      payload := payload
                      alg := readHeaderString header (ascii "alg")
                      kid := readHeaderString header (ascii "kid")
                      signingInput := seg.signing
                      signature := signature }

/-! ## 3. What the splitter accepts -/

/-- The scan when no dot has been seen yet, over a dot-free prefix. -/
theorem scanDots_append {x rest : Bytes} {q : Nat} {d1 d2 : Option Nat} (h : dot ∉ x) :
    scanDots (x ++ rest) q d1 d2 = scanDots rest (q + x.length) d1 d2 := by
  induction x generalizing q with
  | nil => simp
  | cons c x ih =>
    have hc : c ≠ dot := fun e => h (e ▸ List.mem_cons_self)
    have hstep : scanDots (c :: (x ++ rest)) q d1 d2 = scanDots (x ++ rest) (q + 1) d1 d2 := by
      cases d1 <;> cases d2 <;> simp [scanDots, hc]
    rw [List.cons_append, hstep, ih (List.not_mem_of_not_mem_cons h), List.length_cons]
    congr 1
    omega

theorem scanDots_dotFree {x : Bytes} {q : Nat} {d1 d2 : Option Nat} (h : dot ∉ x) :
    scanDots x q d1 d2 = some (d1, d2) := by
  have happ : scanDots (x ++ []) q d1 d2 = scanDots [] (q + x.length) d1 d2 := scanDots_append h
  rwa [List.append_nil] at happ

/-- A list either is dot-free or is cut by its first dot. -/
theorem dotFree_or_cut (l : Bytes) : dot ∉ l ∨ ∃ x r, dot ∉ x ∧ l = x ++ dot :: r := by
  induction l with
  | nil => exact .inl List.not_mem_nil
  | cons c l ih =>
    by_cases hc : c = dot
    · exact .inr ⟨[], l, List.not_mem_nil, by rw [hc]; rfl⟩
    · have hcons : ∀ {x : Bytes}, dot ∉ x → dot ∉ c :: x := by
        intro x hx hmem
        rcases List.mem_cons.mp hmem with e | hmem
        · exact hc e.symm
        · exact hx hmem
      rcases ih with h | ⟨x, r, hx, rfl⟩
      · exact .inl (hcons h)
      · exact .inr ⟨c :: x, r, hcons hx, rfl⟩

/-- The scan finds two dots and no third exactly on three dot-free pieces, and the positions
it reports are the lengths of the pieces. -/
theorem scanDots_eq_some_iff {token : Bytes} {dot1 dot2 : Nat} :
    scanDots token 0 none none = some (some dot1, some dot2) ↔
      ∃ h p s, dot ∉ h ∧ dot ∉ p ∧ dot ∉ s ∧ token = Separator.three dot h p s ∧
        dot1 = h.length ∧ dot2 = h.length + 1 + p.length := by
  constructor
  · intro hscan
    rcases dotFree_or_cut token with ht | ⟨h, r, hh, rfl⟩
    · rw [scanDots_dotFree ht] at hscan
      simp at hscan
    · rw [scanDots_append hh, scanDots, if_neg (by simp)] at hscan
      rcases dotFree_or_cut r with hr | ⟨p, s, hp, rfl⟩
      · simp only [scanDots_dotFree hr] at hscan
        simp at hscan
      · simp only [scanDots_append hp] at hscan
        rw [scanDots, if_neg (by simp)] at hscan
        rcases dotFree_or_cut s with hs | ⟨x, y, hx, rfl⟩
        · simp only [scanDots_dotFree hs, Option.some.injEq, Prod.mk.injEq] at hscan
          refine ⟨h, p, s, hh, hp, hs, rfl, ?_, ?_⟩ <;> omega
        · simp only [scanDots_append hx] at hscan
          rw [scanDots, if_neg (by simp)] at hscan
          simp at hscan
  · rintro ⟨h, p, s, hh, hp, hs, rfl, rfl, rfl⟩
    rw [Separator.three, scanDots_append hh, scanDots, if_neg (by simp)]
    simp only [scanDots_append hp]
    rw [scanDots, if_neg (by simp)]
    simp only [scanDots_dotFree hs]
    simp [Nat.add_assoc]

/-- The splitter accepts `h.p.s` with dot-free pieces, the first two not empty and the first
within its size limit, and nothing else; the signing input is `h.p`. -/
theorem splitSegments_eq_some_iff {token : Bytes} {seg : Segments} :
    splitSegments token = some seg ↔
      token = Separator.three dot seg.header seg.payload seg.signature ∧
      dot ∉ seg.header ∧ dot ∉ seg.payload ∧ dot ∉ seg.signature ∧
      seg.header ≠ [] ∧ seg.payload ≠ [] ∧ seg.header.length ≤ maxJwtHeader ∧
      seg.signing = seg.header ++ dot :: seg.payload := by
  constructor
  · intro h
    unfold splitSegments at h
    split at h
    · next dot1 dot2 hscan =>
      obtain ⟨x, p, s, hx, hp, hs, rfl, rfl, rfl⟩ := scanDots_eq_some_iff.mp hscan
      simp only [Separator.take_first, Separator.take_second, Separator.drop_third,
        Separator.take_three] at h
      split at h
      · exact absurd h (by simp)
      · next hne =>
        split at h
        · exact absurd h (by simp)
        · next hle =>
          obtain rfl := Option.some.inj h
          rw [not_or, List.length_eq_zero_iff, List.length_eq_zero_iff] at hne
          exact ⟨rfl, hx, hp, hs, hne.1, hne.2, Nat.le_of_not_lt hle, rfl⟩
    · exact absurd h (by simp)
  · obtain ⟨x, p, sg, s⟩ := seg
    rintro ⟨rfl, hx, hp, hs, hx0, hp0, hle, hsg⟩
    simp only at hx hp hs hx0 hp0 hle hsg
    subst hsg
    have hscan := scanDots_eq_some_iff.mpr ⟨x, p, s, hx, hp, hs, rfl, rfl, rfl⟩
    have hne : ¬ (x.length = 0 ∨ p.length = 0) := by
      rw [not_or, List.length_eq_zero_iff, List.length_eq_zero_iff]
      exact ⟨hx0, hp0⟩
    simp only [splitSegments, hscan, Separator.take_first, Separator.take_second,
      Separator.drop_third, Separator.take_three, if_neg hne]
    rw [if_neg (by omega)]

/-! ## 4. What the decoder accepts -/

/-- `t` is the decoding of `str`, cut into the segments `h`, `p` and `s`. -/
structure Decoded (E : Env PKey) (str h p s : Bytes) (t : Token) : Prop where
  size : str.length ≤ maxJwtSize
  cut : str = Separator.three dot h p s
  dotFree : dot ∉ h ∧ dot ∉ p ∧ dot ∉ s
  header_ne : h ≠ []
  payload_ne : p ≠ []
  header_size : h.length ≤ maxJwtHeader
  header : ∃ raw, E.b64.decode h = some raw ∧ E.json.parseUntrusted raw = some t.header ∧
    t.header.isObject = true
  payload : ∃ raw, E.b64.decode p = some raw ∧ E.json.parseUntrusted raw = some t.payload ∧
    t.payload.isObject = true
  signature : if s = [] then t.signature = [] else E.b64.decode s = some t.signature
  signingInput : t.signingInput = h ++ dot :: p
  alg : t.alg = readHeaderString t.header (ascii "alg")
  kid : t.kid = readHeaderString t.header (ascii "kid")

variable {E : Env PKey}

theorem decodeB64url_eq_some {fault : Bool} {src raw : Bytes}
    (h : decodeB64url E fault src = some raw) : E.b64.decode src = some raw := by
  unfold decodeB64url at h
  split at h
  · exact absurd h (by simp)
  · exact h

theorem parseJsonObject_eq_some {fault : Bool} {raw : Bytes} {json : Json}
    (h : parseJsonObject E fault raw = some json) :
    E.json.parseUntrusted raw = some json ∧ json.isObject = true := by
  unfold parseJsonObject at h
  split at h
  · exact absurd h (by simp)
  · next v hv =>
    split at hv
    · exact absurd hv (by simp)
    · split at h
      · next ho =>
        obtain rfl := Option.some.inj h
        exact ⟨hv, ho⟩
      · exact absurd h (by simp)

theorem parseJsonObject_of {raw : Bytes} {json : Json}
    (h : E.json.parseUntrusted raw = some json) (ho : json.isObject = true) :
    parseJsonObject E false raw = some json := by
  simp [parseJsonObject, h, ho]

/-- Whatever step may have failed, a token that comes out is the decoding of the input. -/
theorem decode_sound {f : DecodeFaults} {str : Bytes} {pool : Pool} {t : Token}
    (hd : decode E f (some str) (some pool) = some t) : ∃ h p s, Decoded E str h p s t := by
  simp only [decode] at hd
  split at hd
  · exact absurd hd (by simp)
  split at hd
  · exact absurd hd (by simp)
  next hsize =>
  split at hd
  · exact absurd hd (by simp)
  next seg hseg =>
  obtain ⟨hcut, hh, hp, hs, hh0, hp0, hhl, hsign⟩ := splitSegments_eq_some_iff.mp hseg
  split at hd
  · exact absurd hd (by simp)
  split at hd
  · exact absurd hd (by simp)
  next hraw hhraw =>
  split at hd
  · exact absurd hd (by simp)
  next header hheader =>
  split at hd
  · exact absurd hd (by simp)
  next praw hpraw =>
  split at hd
  · exact absurd hd (by simp)
  next payload hpayload =>
  split at hd
  · exact absurd hd (by simp)
  next signature hsig =>
  obtain rfl := Option.some.inj hd
  obtain ⟨hjson, hobj⟩ := parseJsonObject_eq_some hheader
  obtain ⟨pjson, pobj⟩ := parseJsonObject_eq_some hpayload
  refine ⟨seg.header, seg.payload, seg.signature, ?_⟩
  refine {
    size := Nat.le_of_not_lt hsize
    cut := hcut
    dotFree := ⟨hh, hp, hs⟩
    header_ne := hh0
    payload_ne := hp0
    header_size := hhl
    header := ⟨hraw, decodeB64url_eq_some hhraw, hjson, hobj⟩
    payload := ⟨praw, decodeB64url_eq_some hpraw, pjson, pobj⟩
    signature := ?_
    signingInput := hsign
    alg := rfl
    kid := rfl }
  by_cases h0 : seg.signature = []
  · rw [if_pos h0]
    rw [if_pos (by rw [h0]; rfl)] at hsig
    exact (Option.some.inj hsig).symm
  · rw [if_neg h0]
    rw [if_neg (fun hl => h0 (List.length_eq_zero_iff.mp hl))] at hsig
    exact decodeB64url_eq_some hsig

/-- Conversely, when no step fails for want of memory, a decoding of the input comes out. -/
theorem decode_complete {str h p s : Bytes} {pool : Pool} {t : Token}
    (hd : Decoded E str h p s t) : decode E noDecodeFaults (some str) (some pool) = some t := by
  obtain ⟨hraw, hhraw, hjson, hobj⟩ := hd.header
  obtain ⟨praw, hpraw, pjson, pobj⟩ := hd.payload
  have hne : str.length ≠ 0 := by
    rw [hd.cut, Separator.length_three]
    omega
  have hseg : splitSegments str = some ⟨h, p, h ++ dot :: p, s⟩ :=
    splitSegments_eq_some_iff.mpr ⟨hd.cut, hd.dotFree.1, hd.dotFree.2.1, hd.dotFree.2.2,
      hd.header_ne, hd.payload_ne, hd.header_size, rfl⟩
  have hsig : (if s.length = 0 then some [] else decodeB64url E false s) = some t.signature := by
    have hs := hd.signature
    by_cases h0 : s = []
    · rw [if_pos h0] at hs
      rw [if_pos (by rw [h0]; rfl), hs]
    · rw [if_neg h0] at hs
      rw [if_neg (fun hl => h0 (List.length_eq_zero_iff.mp hl))]
      simpa [decodeB64url] using hs
  have hhd : decodeB64url E false h = some hraw := by simpa [decodeB64url] using hhraw
  have hpd : decodeB64url E false p = some praw := by simpa [decodeB64url] using hpraw
  simp only [decode, if_neg hne, if_neg (Nat.not_lt.mpr hd.size), hseg, noDecodeFaults,
    Bool.or_self, Bool.false_eq_true, if_false, hhd, hpd, parseJsonObject_of hjson hobj,
    parseJsonObject_of pjson pobj, hsig]
  rw [← hd.alg, ← hd.kid, ← hd.signingInput]

end NxeJwx
