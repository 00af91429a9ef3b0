/-
# What is issued can be decoded

The header text is a compact JSON object, so the parser gives its members back whatever the kid
holds (`parse_header`); the three segments are dot-free, so the splitter finds them again; and
the limits of the encoder are those of the decoder.  Together these make every issued token
decode to what went into it (`decoded_of_issued`).
-/
import NxeJwx.Encode
import NxeJwx.Soundness

namespace NxeJwx

variable {PKey : Type} {E : Env PKey}

/-! ## 1. The header -/

/-- A text of the string `value`: in quotation marks when it needs no escape, or as nxe-json
writes it. -/
def NxeJson.StringText (J : NxeJson) (text value : Bytes) : Prop :=
  (CompactObject.Plain value ∧ text = CompactObject.quote value) ∨
    J.stringifyString value = some text

/-- The parser reads a header back: a compact object of up to three members with distinct plain
names and string values, those in nxe-json's own serialisation included. -/
def NxeJson.ReadsHeaders (J : NxeJson) : Prop :=
  ∀ ms : List (Bytes × Bytes × Bytes), ms.length ≤ 3 → (ms.map Prod.fst).Nodup →
    (∀ v ∈ ms, CompactObject.Plain v.1 ∧ J.StringText v.2.1 v.2.2) →
      J.parseUntrusted (CompactObject.object (ms.map fun v => (v.1, v.2.1))) =
        some (.object (ms.map fun v => (v.1, .string v.2.2)))

/-- The `kid` member, for a kid that is there and not empty. -/
def kidMembers : Option Bytes → List (Bytes × Json)
  | some kid => if kid = [] then [] else [(ascii "kid", .string kid)]
  | none => []

/-- The members of a header. -/
def headerMembers (alg : Bytes) (kid : Option Bytes) : List (Bytes × Json) :=
  (ascii "alg", .string alg) :: (ascii "typ", .string (ascii "JWT")) :: kidMembers kid

theorem algs_name_plain (haveHmac : Bool) :
    ∀ a ∈ algs haveHmac, CompactObject.Plain a.name := by
  cases haveHmac <;> decide +kernel

theorem names_plain : ∀ s ∈ [ascii "alg", ascii "typ", ascii "JWT", ascii "kid"],
    CompactObject.Plain s := by
  decide +kernel

/-- The pieces of a header text make a compact object. -/
theorem headerText (alg : Bytes) (members : List (Bytes × Bytes)) :
    ascii "\x7b\"alg\":\"" ++ alg ++ ascii "\",\"typ\":\"JWT\"" ++ CompactObject.rest members =
      CompactObject.object ((ascii "alg", CompactObject.quote alg) ::
        (ascii "typ", CompactObject.quote (ascii "JWT")) :: members) := by
  have h1 : ascii "\x7b\"alg\":\"" = 123 :: CompactObject.quote (ascii "alg") ++ [58, 34] := by
    decide
  have h2 : ascii "\",\"typ\":\"JWT\"" = 34 :: 44 :: CompactObject.quote (ascii "typ") ++
      58 :: CompactObject.quote (ascii "JWT") := by
    decide
  rw [h1, h2]
  simp [CompactObject.object, CompactObject.member, CompactObject.rest, CompactObject.quote,
    List.append_assoc]

/-- What is spliced in for a kid: nothing, or one more member, whose text is nxe-json's
serialisation of the kid. -/
theorem kidMember_eq_some {f : EncodeFaults} {kid : Option Bytes} {member : Bytes}
    (h : kidMember E f kid = some member) :
    ∃ ms : List (Bytes × Bytes × Bytes),
      member ++ ascii "\x7d" = CompactObject.rest (ms.map fun v => (v.1, v.2.1)) ∧
      kidMembers kid = ms.map (fun v => (v.1, .string v.2.2)) ∧
      (ms = [] ∨ ∃ text value, ms = [(ascii "kid", text, value)] ∧
        E.json.stringifyString value = some text) := by
  have hbrace : ascii "\x7d" = CompactObject.rest [] := by decide
  cases kid with
  | none =>
    obtain rfl := Option.some.inj h
    exact ⟨[], hbrace, rfl, .inl rfl⟩
  | some id =>
    by_cases hid : id = []
    · subst hid
      obtain rfl := Option.some.inj h
      exact ⟨[], hbrace, rfl, .inl rfl⟩
    · simp only [kidMember, if_pos (List.length_pos_iff.mpr hid)] at h
      split at h
      · exact absurd h (by simp)
      next quoted hquoted =>
      obtain rfl := Option.some.inj h
      have hstring : E.json.stringifyString id = some quoted := by
        split at hquoted
        · exact absurd hquoted (by simp)
        · exact hquoted
      refine ⟨[(ascii "kid", quoted, id)], ?_, if_neg hid, .inr ⟨quoted, id, rfl, hstring⟩⟩
      have hkey : ascii ",\"kid\":" = 44 :: CompactObject.quote (ascii "kid") ++ [58] := by decide
      rw [hkey, hbrace]
      simp [CompactObject.rest, CompactObject.member, List.append_assoc]

/-- The header text of a run parses to the header. -/
theorem parse_header (hJ : E.json.ReadsHeaders) {f : EncodeFaults} {a : Alg}
    (ha : a ∈ algs E.haveHmac) {kid : Option Bytes} {header : Bytes}
    (h : buildHeader E f a.name kid = some header) :
    E.json.parseUntrusted header = some (.object (headerMembers a.name kid)) := by
  have hplain := algs_name_plain _ a ha
  unfold buildHeader at h
  split at h
  · exact absurd h (by simp)
  next member hmember =>
  split at h
  · exact absurd h (by simp)
  obtain rfl := Option.some.inj h
  obtain ⟨ms, htext, hmembers, hms⟩ := kidMember_eq_some hmember
  rw [List.append_assoc, htext, headerText, headerMembers, hmembers]
  refine hJ ((ascii "alg", CompactObject.quote a.name, a.name) ::
    (ascii "typ", CompactObject.quote (ascii "JWT"), ascii "JWT") :: ms) ?_ ?_ ?_
  · rcases hms with rfl | ⟨_, _, rfl, -⟩ <;> simp
  · rcases hms with rfl | ⟨_, _, rfl, -⟩
    · exact (by decide : [ascii "alg", ascii "typ"].Nodup)
    · exact (by decide : [ascii "alg", ascii "typ", ascii "kid"].Nodup)
  · intro v hv
    rcases List.mem_cons.mp hv with rfl | hv
    · exact ⟨names_plain _ (by simp), .inl ⟨hplain, rfl⟩⟩
    rcases List.mem_cons.mp hv with rfl | hv
    · exact ⟨names_plain _ (by simp), .inl ⟨names_plain _ (by simp), rfl⟩⟩
    rcases hms with rfl | ⟨text, value, rfl, hstring⟩
    · exact absurd hv List.not_mem_nil
    · obtain rfl := List.mem_singleton.mp hv
      exact ⟨names_plain _ (by simp), .inr hstring⟩

theorem readHeaderString_alg (alg : Bytes) (kid : Option Bytes) :
    readHeaderString (.object (headerMembers alg kid)) (ascii "alg") = alg := by
  simp [readHeaderString, Json.stringAt, Json.objectGet, headerMembers, Json.stringOf]

theorem readHeaderString_kid (alg : Bytes) (kid : Option Bytes) :
    readHeaderString (.object (headerMembers alg kid)) (ascii "kid") = kid.getD [] := by
  have h1 : (ascii "alg" == ascii "kid") = false := by decide
  have h2 : (ascii "typ" == ascii "kid") = false := by decide
  cases kid with
  | none =>
    simp [readHeaderString, Json.stringAt, Json.objectGet, headerMembers, kidMembers, h1, h2]
  | some id =>
    by_cases hid : id = [] <;>
      simp [readHeaderString, Json.stringAt, Json.objectGet, headerMembers, kidMembers, h1, h2,
        hid, Json.stringOf]

/-! ## 2. An issued token -/

/-- What a successful run has done: the header text, the row and the raw signature. -/
structure Issued (E : Env PKey) (f : EncodeFaults) (alg : Bytes) (kid : Option Bytes)
    (claims key : Bytes) (a : Alg) (header sig : Bytes) : Prop where
  prepared : Prepared E f alg kid claims a header
  claims_ne : claims ≠ []
  key_ne : key ≠ []
  signed : (signRaw E f a key (E.b64.encode header ++ dot :: E.b64.encode claims)).sig = some sig
  size : (assemble E header claims sig).length ≤ maxJwtSize

theorem assemble_eq (E : Env PKey) (header claims sig : Bytes) :
    E.b64.encode header ++ dot :: E.b64.encode claims ++ dot :: E.b64.encode sig =
      assemble E header claims sig := by
  simp [assemble, Separator.three, List.append_assoc]

/-- A run that succeeds hands the assembled token out, NUL-terminated. -/
theorem encode_ok {f : EncodeFaults} {pool : Option Pool} {alg kid claims key : Option Bytes}
    {out : Option OutStr} (h : (encode E f pool alg kid claims key out).rc = .ok) :
    ∃ alg' claims' key' a header sig, alg = some alg' ∧ claims = some claims' ∧
      key = some key' ∧ Issued E f alg' kid claims' key' a header sig ∧
      (encode E f pool alg kid claims key out).out =
        some ⟨(assemble E header claims' sig).length,
          some (assemble E header claims' sig ++ [0])⟩ := by
  unfold encode at h ⊢
  split at h
  case h_2 => exact absurd h (by simp)
  next alg' claims' key' out' =>
  split at h
  · exact absurd h (by simp)
  next hargs =>
  have hspec := encodePrepare_spec E f alg' kid claims'
  split at h
  · exact absurd h (by simp [EncodeRun.fail])
  next a signingInput hprepare =>
  rw [hprepare] at hspec
  obtain ⟨header, hprepared, rfl⟩ := hspec
  rcases encodeFinish_cases (E := E) (f := f) a key'
    (E.b64.encode header ++ dot :: E.b64.encode claims') with
    ⟨sig, hsig, hsize, hrun⟩ | ⟨stop, hrun, -⟩
  · rw [assemble_eq] at hsize hrun
    refine ⟨alg', claims', key', a, header, sig, rfl, rfl, rfl, ⟨hprepared, ?_, ?_, hsig, hsize⟩,
      ?_⟩
    · rintro rfl
      exact hargs (.inr (.inl rfl))
    · rintro rfl
      exact hargs (.inr (.inr rfl))
    · simp only [if_neg hargs, hrun]
  · rw [hrun] at h
    exact absurd h (by simp [EncodeRun.fail])

/-- The decoding of an issued token. -/
def issuedToken (E : Env PKey) (alg : Bytes) (kid : Option Bytes)
    (header claims sig : Bytes) (payload : Json) : Token where
  header := .object (headerMembers alg kid)
  payload := payload
  alg := alg
  kid := kid.getD []
  signingInput := E.b64.encode header ++ dot :: E.b64.encode claims
  signature := sig

/-- An issued token decodes to what went into it. -/
theorem decoded_of_issued (hC : E.b64.Lawful) (hJ : E.json.ReadsHeaders) {f : EncodeFaults}
    {alg : Bytes} {kid : Option Bytes} {claims key : Bytes} {a : Alg} {header sig : Bytes}
    (h : Issued E f alg kid claims key a header sig) :
    ∃ payload, E.json.parseUntrusted claims = some payload ∧
      Decoded E (assemble E header claims sig) (E.b64.encode header) (E.b64.encode claims)
        (E.b64.encode sig) (issuedToken E alg kid header claims sig payload) := by
  obtain ⟨payload, hpayload, hobject⟩ := h.prepared.json
  obtain ⟨ha, rfl⟩ := lookupAlg_eq_some_iff.mp h.prepared.row
  have hheader := parse_header hJ ha h.prepared.built
  have hheader_ne : header ≠ [] := by
    have hbuilt := h.prepared.built
    rintro rfl
    unfold buildHeader at hbuilt
    split at hbuilt
    · exact absurd hbuilt (by simp)
    split at hbuilt
    · exact absurd hbuilt (by simp)
    exact absurd (congrArg List.length (Option.some.inj hbuilt))
      (by simp [show (ascii "\x7d").length = 1 from rfl])
  refine ⟨payload, hpayload, {
    size := h.size
    cut := rfl
    dotFree := ⟨hC.dot_not_mem_encode _, hC.dot_not_mem_encode _, hC.dot_not_mem_encode _⟩
    header_ne := fun h0 => hheader_ne (hC.encode_eq_nil_iff.mp h0)
    payload_ne := fun h0 => h.claims_ne (hC.encode_eq_nil_iff.mp h0)
    header_size := h.prepared.size
    header := ⟨header, hC.decode_encode _, hheader, rfl⟩
    payload := ⟨claims, hC.decode_encode _, hpayload, hobject⟩
    signature := ?_
    signingInput := rfl
    alg := (readHeaderString_alg _ _).symm
    kid := (readHeaderString_kid _ _).symm }⟩
  split
  next h0 => exact hC.encode_eq_nil_iff.mp h0
  · exact hC.decode_encode sig

/-! ## 3. The limits -/

/-- The token that would be assembled is over a limit of the decoder. -/
def OverLimit (E : Env PKey) (header claims sig : Bytes) : Prop :=
  (E.b64.encode header).length > maxJwtHeader ∨ (assemble E header claims sig).length > maxJwtSize

/-- The decoder accepts no token over the limits. -/
theorem decode_overLimit (hC : E.b64.Lawful) {header claims sig : Bytes}
    (h : OverLimit E header claims sig) (f : DecodeFaults) (pool : Option Pool) :
    decode E f (some (assemble E header claims sig)) pool = none := by
  cases pool with
  | none => rfl
  | some pool =>
    by_contra hne
    obtain ⟨t, ht⟩ := Option.ne_none_iff_exists'.mp hne
    obtain ⟨x, p, s, hd⟩ := decode_sound ht
    rcases h with hheader | hsize
    · obtain ⟨rfl, -, -⟩ := Separator.three_inj (hC.dot_not_mem_encode _) hd.dotFree.1
        (hC.dot_not_mem_encode _) hd.dotFree.2.1 hd.cut
      exact absurd hd.header_size (Nat.not_le.mpr hheader)
    · exact absurd hd.size (Nat.not_le.mpr hsize)

/-- Claims over the limit make the token go over it, whatever the rest is. -/
theorem overLimit_of_claims (hC : E.b64.Lawful) {claims : Bytes}
    (h : claims.length > maxJwtSize) (header sig : Bytes) : OverLimit E header claims sig := by
  refine .inr ?_
  have hlen := hC.length_encode claims
  rw [assemble, Separator.length_three]
  omega

/-- What a run that stopped at one of its three size checks says about the token it was
assembling. -/
structure SizeChecks (E : Env PKey) (f : EncodeFaults) (alg : Bytes) (kid : Option Bytes)
    (claims key : Bytes) (stop : Option EncodeStop) : Prop where
  claimsSize : stop = some .claimsSize → ∀ header sig, OverLimit E header claims sig
  headerSize : stop = some .headerSize → ∃ header, buildHeader E f alg kid = some header ∧
    ∀ sig, OverLimit E header claims sig
  tokenSize : stop = some .tokenSize → ∃ a header sig, lookupAlg E.haveHmac alg = some a ∧
    buildHeader E f alg kid = some header ∧
    (signRaw E f a key (E.b64.encode header ++ dot :: E.b64.encode claims)).sig = some sig ∧
    OverLimit E header claims sig

theorem encode_sizeChecks (hC : E.b64.Lawful) (f : EncodeFaults) (pool : Option Pool)
    (alg : Bytes) (kid : Option Bytes) (claims key : Bytes) (out : Option OutStr) :
    SizeChecks E f alg kid claims key
      (encode E f pool (some alg) kid (some claims) (some key) out).stop := by
  have hspec := encodePrepare_spec E f alg kid claims
  unfold encode
  split
  case h_2 => exact ⟨by simp, by simp, by simp⟩
  next heq1 heq2 heq3 =>
  obtain rfl := Option.some.inj heq1
  obtain rfl := Option.some.inj heq2
  obtain rfl := Option.some.inj heq3
  split
  · exact ⟨by simp, by simp, by simp⟩
  split
  next stop hstop =>
    rw [hstop] at hspec
    refine ⟨?_, ?_, ?_⟩
    · intro h
      obtain rfl := Option.some.inj h
      exact overLimit_of_claims hC hspec
    · intro h
      obtain rfl := Option.some.inj h
      obtain ⟨a, header, ha, hbuilt, hlen⟩ := hspec
      rw [(lookupAlg_eq_some_iff.mp ha).2] at hbuilt
      exact ⟨header, hbuilt, fun _ => .inl hlen⟩
    · intro h
      obtain rfl := Option.some.inj h
      exact absurd rfl hspec
  next a signingInput hprepare =>
    rw [hprepare] at hspec
    obtain ⟨header, hprepared, rfl⟩ := hspec
    rcases encodeFinish_cases (E := E) (f := f) a key
      (E.b64.encode header ++ dot :: E.b64.encode claims) with
      ⟨sig, -, -, hrun⟩ | ⟨stop, hrun, hclaims, hheader, htoken⟩
    · rw [hrun]
      exact ⟨by simp, by simp, by simp⟩
    · rw [hrun]
      refine ⟨fun h => absurd (Option.some.inj h) hclaims,
        fun h => absurd (Option.some.inj h) hheader, ?_⟩
      intro h
      obtain ⟨sig, hsig, hlen⟩ := htoken (Option.some.inj h)
      have hbuilt := hprepared.built
      rw [(lookupAlg_eq_some_iff.mp hprepared.row).2] at hbuilt
      rw [assemble_eq] at hlen
      exact ⟨a, header, sig, hprepared.row, hbuilt, hsig, .inr hlen⟩

/-! ## 4. The round trip -/

/-- The token decodes, to `t`, and gives back everything that went into it. -/
structure RoundTrip (E : Env PKey) (f : EncodeFaults) (alg : Bytes) (kid : Option Bytes)
    (claims key token : Bytes) (t : Token) : Prop where
  size : token.length ≤ maxJwtSize
  decoded : ∀ pool, decode E noDecodeFaults (some token) (some pool) = some t
  payload : E.json.parseUntrusted claims = some t.payload
  segment : ∃ h p s, token = Separator.three dot h p s ∧ dot ∉ h ∧ dot ∉ p ∧ dot ∉ s ∧
    E.b64.decode p = some claims
  header : t.header = .object (headerMembers alg kid)
  signed : ∃ a, lookupAlg E.haveHmac alg = some a ∧
    (signRaw E f a key t.signingInput).sig = some t.signature ∧
    Signs E a key t.signingInput t.signature
  alg : tokenAlg (some t) = some alg
  kid : tokenKid (some t) = kid.filter (· ≠ [])

theorem roundTrip_of_issued (hC : E.b64.Lawful) (hJ : E.json.ReadsHeaders) {f : EncodeFaults}
    {alg : Bytes} {kid : Option Bytes} {claims key : Bytes} {a : Alg} {header sig : Bytes}
    (h : Issued E f alg kid claims key a header sig) :
    ∃ t, RoundTrip E f alg kid claims key (assemble E header claims sig) t := by
  obtain ⟨payload, hpayload, hd⟩ := decoded_of_issued hC hJ h
  have halg : alg ≠ [] := by
    obtain ⟨ha, rfl⟩ := lookupAlg_eq_some_iff.mp h.prepared.row
    exact (algs_name_ne _ a ha).1
  refine ⟨issuedToken E alg kid header claims sig payload, {
    size := h.size
    decoded := fun pool => decode_complete hd
    payload := hpayload
    segment := ⟨_, _, _, rfl, hd.dotFree.1, hd.dotFree.2.1, hd.dotFree.2.2, hC.decode_encode _⟩
    header := rfl
    signed := ⟨a, h.prepared.row, h.signed, signs_of_signRaw h.signed⟩
    alg := tokenAlg_eq_some_iff.mpr ⟨rfl, halg⟩
    kid := ?_ }⟩
  cases kid with
  | none => rfl
  | some id =>
    by_cases hid : id = []
    · subst hid
      rfl
    · rw [Option.filter_some_pos (by simpa using hid)]
      exact tokenKid_eq_some_iff.mpr ⟨rfl, hid⟩

/-- What `nxe_jwx_encode` hands out can be decoded, and gives back what went in.  It gives up on
a size only where the token would be over a limit of the decoder. -/
theorem issue_round_trip (hC : E.b64.Lawful) (hJ : E.json.ReadsHeaders) (f : EncodeFaults)
    (pool : Option Pool) (alg kid claims key : Option Bytes) (out : Option OutStr) :
    ((encode E f pool alg kid claims key out).rc = .ok →
      ∃ alg' claims' key' token t, alg = some alg' ∧ claims = some claims' ∧ key = some key' ∧
        (encode E f pool alg kid claims key out).out =
          some ⟨token.length, some (token ++ [0])⟩ ∧
        RoundTrip E f alg' kid claims' key' token t) ∧
    (∀ alg' claims' key', alg = some alg' → claims = some claims' → key = some key' →
      SizeChecks E f alg' kid claims' key' (encode E f pool alg kid claims key out).stop) ∧
    ∀ header claims' sig, OverLimit E header claims' sig → ∀ f' pool',
      decode E f' (some (assemble E header claims' sig)) pool' = none := by
  refine ⟨?_, ?_, ?_⟩
  · intro hok
    obtain ⟨alg', claims', key', a, header, sig, rfl, rfl, rfl, hissued, hout⟩ := encode_ok hok
    obtain ⟨t, ht⟩ := roundTrip_of_issued hC hJ hissued
    exact ⟨alg', claims', key', _, t, rfl, rfl, rfl, hout, ht⟩
  · rintro alg' claims' key' rfl rfl rfl
    exact encode_sizeChecks hC f pool alg' kid claims' key' out
  · intro header claims' sig h f' pool'
    exact decode_overLimit hC h f' pool'

/-- The reader of the tables reads headers. -/
theorem Facts.readsHeaders (T : Facts) : T.env.json.ReadsHeaders := by
  intro ms _ _ hms
  have htext : ms.map (fun v => (v.1, v.2.1)) =
      (ms.map fun v => (v.1, v.2.2)).map fun v => (v.1, StringObject.writeString v.2) := by
    rw [List.map_map]
    refine List.map_congr_left ?_
    intro v hv
    rcases (hms v hv).2 with ⟨hplain, htext⟩ | htext
    · rw [Function.comp_apply, StringObject.writeString_of_plain hplain, htext]
    · rw [Function.comp_apply, Option.some.inj htext]
  rw [htext]
  refine (T.parse_strings (StringObject.readObject_writeObject ?_)).trans ?_
  · intro v hv
    obtain ⟨w, hw, rfl⟩ := List.mem_map.mp hv
    exact (hms w hw).1
  · rw [List.map_map]
    rfl

/-- A run that issues the Ed25519 token with the kid `k1`, into a string that is not empty. -/
def edIssue : EncodeRun Handle :=
  encode (edFacts []).env noEncodeFaults (some ⟨⟩) (some (ascii "EdDSA")) (some (ascii "k1"))
    (some edClaims.1) (some edPrivatePem) (some ⟨3, some (ascii "old")⟩)

/-- It succeeds, and the token round-trips. -/
theorem issue_round_trip_ed25519 :
    ∃ token t, edIssue.out = some ⟨token.length, some (token ++ [0])⟩ ∧
      RoundTrip (edFacts []).env noEncodeFaults (ascii "EdDSA") (some (ascii "k1")) edClaims.1
        edPrivatePem token t := by
  obtain ⟨alg, claims, key, token, t, halg, hclaims, hkey, hout, ht⟩ :=
    (issue_round_trip (E := (edFacts []).env) stubCodec_lawful (edFacts []).readsHeaders
      noEncodeFaults (some ⟨⟩) (some (ascii "EdDSA")) (some (ascii "k1")) (some edClaims.1)
      (some edPrivatePem) (some ⟨3, some (ascii "old")⟩)).1 (by decide +kernel)
  obtain rfl := Option.some.inj halg
  obtain rfl := Option.some.inj hclaims
  obtain rfl := Option.some.inj hkey
  exact ⟨token, t, hout, ht⟩

end NxeJwx
