/-
# The grammar of compact tokens

`Grammar` says which byte strings are tokens, in terms of the text alone, and `ReadAs` what a
decoded token shows of the text it came from.  `nxe_jwx_decode` accepts exactly the grammar,
a token of the grammar is cut in one way only, and what the decoder hands out (to be verified
and to be read) are the parts of that cut.

The work is done in `Decode.lean`: `decode_sound` and `decode_complete` meet in `Decoded`, which
is the two structures of this module in one.
-/
import NxeJwx.Soundness

namespace NxeJwx

variable {PKey : Type}

/-- `T` is a compact token with the segments `h`, `p` and `s`. -/
structure Grammar (E : Env PKey) (T h p s : Bytes) : Prop where
  nonempty : 1 ≤ T.length
  size : T.length ≤ 16384
  cut : T = h ++ dot :: (p ++ dot :: s)
  dotFree : dot ∉ h ∧ dot ∉ p ∧ dot ∉ s
  header_ne : h ≠ []
  payload_ne : p ≠ []
  header_size : h.length ≤ 8192
  header : ∃ raw members, E.b64.decode h = some raw ∧
    E.json.parseUntrusted raw = some (.object members)
  payload : ∃ raw members, E.b64.decode p = some raw ∧
    E.json.parseUntrusted raw = some (.object members)
  signature : s ≠ [] → ∃ raw, E.b64.decode s = some raw

/-- What the token `t` shows of the segments `h`, `p` and `s` of `T`. -/
structure ReadAs (E : Env PKey) (T h p s : Bytes) (t : Token) : Prop where
  /-- what is verified -/
  signingInput : t.signingInput = h ++ dot :: p
  /-- the prefix before the second dot -/
  secondDot : T = t.signingInput ++ dot :: s ∧ t.signingInput.count dot = 1
  signature_empty : s = [] → t.signature = []
  signature : s ≠ [] → E.b64.decode s = some t.signature
  /-- what is read -/
  header : ∃ raw, E.b64.decode h = some raw ∧ E.json.parseUntrusted raw = some t.header
  payload : ∃ raw, E.b64.decode p = some raw ∧ E.json.parseUntrusted raw = some t.payload
  alg : ∀ v, tokenAlg (some t) = some v ↔
    t.header.objectGet (ascii "alg") = some (.string v) ∧ v ≠ []
  kid : ∀ v, tokenKid (some t) = some v ↔
    t.header.objectGet (ascii "kid") = some (.string v) ∧ v ≠ []

variable {E : Env PKey} {T h p s : Bytes}

/-- A token has one cut. -/
theorem Grammar.unique {h' p' s' : Bytes} (hg : Grammar E T h p s) (hg' : Grammar E T h' p' s') :
    h = h' ∧ p = p' ∧ s = s' :=
  Separator.three_inj hg.dotFree.1 hg'.dotFree.1 hg.dotFree.2.1 hg'.dotFree.2.1
    (hg.cut.symm.trans hg'.cut)

theorem isObject_iff {json : Json} :
    json.isObject = true ↔ ∃ members, json = .object members := by
  cases json <;> simp [Json.isObject]

/-- What was decoded is in the grammar. -/
theorem Decoded.grammar {t : Token} (hd : Decoded E T h p s t) : Grammar E T h p s := by
  obtain ⟨hraw, hhraw, hjson, hobj⟩ := hd.header
  obtain ⟨praw, hpraw, pjson, pobj⟩ := hd.payload
  obtain ⟨hms, hhms⟩ := isObject_iff.mp hobj
  obtain ⟨pms, hpms⟩ := isObject_iff.mp pobj
  refine {
    nonempty := ?_
    size := hd.size
    cut := hd.cut
    dotFree := hd.dotFree
    header_ne := hd.header_ne
    payload_ne := hd.payload_ne
    header_size := hd.header_size
    header := ⟨hraw, hms, hhraw, hhms ▸ hjson⟩
    payload := ⟨praw, pms, hpraw, hpms ▸ pjson⟩
    signature := fun hs => ⟨t.signature, ?_⟩ }
  · rw [hd.cut, Separator.length_three]
    omega
  · have hsig := hd.signature
    rwa [if_neg hs] at hsig

/-- A text of the grammar has a decoding. -/
theorem Grammar.decoded (hg : Grammar E T h p s) : ∃ t, Decoded E T h p s t := by
  obtain ⟨hraw, hms, hhraw, hjson⟩ := hg.header
  obtain ⟨praw, pms, hpraw, pjson⟩ := hg.payload
  obtain ⟨signature, hsig⟩ :
      ∃ signature, if s = [] then signature = [] else E.b64.decode s = some signature := by
    by_cases hs : s = []
    · exact ⟨[], by rw [if_pos hs]⟩
    · obtain ⟨raw, hraw⟩ := hg.signature hs
      exact ⟨raw, by rwa [if_neg hs]⟩
  exact ⟨{
      header := .object hms
      payload := .object pms
      alg := readHeaderString (.object hms) (ascii "alg")
      kid := readHeaderString (.object hms) (ascii "kid")
      signingInput := h ++ dot :: p
      signature := signature },
    { size := hg.size
      cut := hg.cut
      dotFree := hg.dotFree
      header_ne := hg.header_ne
      payload_ne := hg.payload_ne
      header_size := hg.header_size
      header := ⟨hraw, hhraw, hjson, rfl⟩
      payload := ⟨praw, hpraw, pjson, rfl⟩
      signature := hsig
      signingInput := rfl
      alg := rfl
      kid := rfl }⟩

/-- A non-empty string read from the header is the string of that member. -/
theorem readHeaderString_eq_iff {header : Json} {key v : Bytes} :
    readHeaderString header key = v ∧ v ≠ [] ↔
      header.objectGet key = some (.string v) ∧ v ≠ [] := by
  rw [← Json.stringAt_eq_some_iff, readHeaderString]
  cases hs : header.stringAt key with
  | none =>
    rw [Option.getD_none]
    exact ⟨fun ⟨e, hne⟩ => absurd e.symm hne, fun ⟨e, _⟩ => absurd e (by simp)⟩
  | some w => rw [Option.getD_some, Option.some.injEq]

/-- A decoding shows its cut. -/
theorem Decoded.readAs {t : Token} (hd : Decoded E T h p s t) : ReadAs E T h p s t := by
  obtain ⟨hraw, hhraw, hjson, -⟩ := hd.header
  obtain ⟨praw, hpraw, pjson, -⟩ := hd.payload
  have hsig := hd.signature
  refine {
    signingInput := hd.signingInput
    secondDot := ⟨?_, ?_⟩
    signature_empty := fun hs => by rwa [if_pos hs] at hsig
    signature := fun hs => by rwa [if_neg hs] at hsig
    header := ⟨hraw, hhraw, hjson⟩
    payload := ⟨praw, hpraw, pjson⟩
    alg := fun v => ?_
    kid := fun v => ?_ }
  · rw [hd.signingInput, hd.cut, Separator.three, List.append_assoc, List.cons_append]
  · rw [hd.signingInput, List.count_append, List.count_cons_self,
      List.count_eq_zero.mpr hd.dotFree.1, List.count_eq_zero.mpr hd.dotFree.2.1]
  · rw [tokenAlg_eq_some_iff, hd.alg, readHeaderString_eq_iff]
  · rw [tokenKid_eq_some_iff, hd.kid, readHeaderString_eq_iff]

/-- **The decoder accepts its grammar, and shows what it accepted.**  Allocations succeeding, a
byte string decodes exactly when it is a token; its cut is unique; and the token that comes out
is read off this cut. -/
theorem decode_grammar (E : Env PKey) (T : Bytes) (pool : Pool) :
    ((decode E noDecodeFaults (some T) (some pool)).isSome = true ↔
      ∃ h p s, Grammar E T h p s) ∧
    (∀ h p s h' p' s', Grammar E T h p s → Grammar E T h' p' s' → h = h' ∧ p = p' ∧ s = s') ∧
    (∀ t, decode E noDecodeFaults (some T) (some pool) = some t →
      ∃ h p s, Grammar E T h p s ∧ ReadAs E T h p s t) := by
  refine ⟨⟨?_, ?_⟩, ?_, ?_⟩
  · intro hsome
    obtain ⟨t, ht⟩ := Option.isSome_iff_exists.mp hsome
    obtain ⟨h, p, s, hd⟩ := decode_sound ht
    exact ⟨h, p, s, hd.grammar⟩
  · rintro ⟨h, p, s, hg⟩
    obtain ⟨t, hd⟩ := hg.decoded
    rw [decode_complete hd]
    rfl
  · intro h p s h' p' s' hg hg'
    exact hg.unique hg'
  · intro t ht
    obtain ⟨h, p, s, hd⟩ := decode_sound ht
    exact ⟨h, p, s, hd.grammar, hd.readAs⟩

/-- The Ed25519 token is cut into its header, its claims and its signature. -/
theorem decode_grammar_ed25519 : ∃ h p s, Grammar (edFacts []).env edToken h p s ∧
    ReadAs (edFacts []).env edToken h p s edDecoded :=
  (decode_grammar (edFacts []).env edToken ⟨⟩).2.2 edDecoded (decode_edToken [])

end NxeJwx
