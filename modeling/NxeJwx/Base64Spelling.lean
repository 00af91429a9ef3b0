/-
# The base64url codec of the test build as regrouping

The codec reads a text as digits of six bits and hands out the octets that their bits are whole
groups of; it drops the padding character and the bits that dangle (`stubDecode_eq`), and encodes
octets as the digits of their padded bits (`stubEncode_eq`).  So it accepts every text over the
alphabet and `=`, two texts decode alike exactly if they agree on the bits in whole octets, and a
text is what the encoder writes only if nothing was dropped (`base64_regroups`).

A signature segment therefore has many spellings.  The strings that decode to one token are the
respellings of its signature, and nothing else about a token can be respelled, because the signing
input is text (`spellings_of_token`).
-/
import NxeJwx.Base64Stub
import NxeJwx.Soundness
import NxeJwx.Lib.BitGroups

namespace NxeJwx

open BitGroups

/-! ## 1. Digits of six bits -/

/-- The digits that a text spells. -/
def digitsOf (src : Bytes) : Option (List Nat) := (src.filter (· != 61)).mapM stubChar

/-- The bits of octets. -/
def octetBits (b : Bytes) : List Bool := stream 8 (b.map UInt8.toNat)

/-- The octets that bits are whole groups of. -/
def octetsOf (bs : List Bool) : Bytes := (groups 8 bs).map UInt8.ofNat

/-- Two texts spell the same octets. -/
def SpelledAlike (src src' : Bytes) : Prop :=
  ∃ ds ds', digitsOf src = some ds ∧ digitsOf src' = some ds' ∧
    whole 8 (stream 6 ds) = whole 8 (stream 6 ds')

theorem stubChar_dot : stubChar dot = none := by decide

@[simp] theorem digitsOf_nil : digitsOf [] = some [] := rfl

theorem digitsOf_pad (src : Bytes) : digitsOf (61 :: src) = digitsOf src := rfl

theorem digitsOf_cons {c : UInt8} (hc : c ≠ 61) (src : Bytes) :
    digitsOf (c :: src) = (stubChar c).bind fun v => (digitsOf src).map fun ds => v :: ds := by
  have htest : (c != 61) = true := bne_iff_ne.mpr hc
  rw [digitsOf, List.filter_cons, if_pos htest, List.mapM_cons]
  cases stubChar c with
  | none => rfl
  | some v => cases h : List.mapM stubChar (src.filter (· != 61)) <;> simp [digitsOf, h]

theorem digitsOf_lt {src : Bytes} {ds : List Nat} (h : digitsOf src = some ds) :
    ∀ d ∈ ds, d < 2 ^ 6 := by
  induction src generalizing ds with
  | nil =>
    obtain rfl := Option.some.inj h
    exact fun d hd => absurd hd List.not_mem_nil
  | cons c src ih =>
    by_cases hc : c = 61
    · subst hc
      exact ih h
    · rw [digitsOf_cons hc] at h
      obtain ⟨v, hv, h⟩ := Option.bind_eq_some_iff.mp h
      obtain ⟨ds', hds, rfl⟩ := Option.map_eq_some_iff.mp h
      intro d hd
      rcases List.mem_cons.mp hd with rfl | hd
      · exact (stubChar_eq_some hv).1
      · exact ih hds d hd

/-- A text spells digits if each of its characters does or is a padding character. -/
theorem digitsOf_isSome_iff {src : Bytes} :
    (digitsOf src).isSome = true ↔ ∀ c ∈ src, c = 61 ∨ (stubChar c).isSome = true := by
  induction src with
  | nil => simp
  | cons c src ih =>
    by_cases hc : c = 61
    · subst hc
      rw [digitsOf_pad, ih]
      simp
    · rw [digitsOf_cons hc]
      cases hv : stubChar c with
      | none => simp [hc, hv]
      | some v => simp [hv, ih]

/-- What the encoder writes spells its digits. -/
theorem digitsOf_alphabet {ds : List Nat} (h : ∀ d ∈ ds, d < 2 ^ 6) :
    digitsOf (ds.map stubAlphabet) = some ds := by
  induction ds with
  | nil => rfl
  | cons d ds ih =>
    obtain ⟨hc, hp, -⟩ := stubChar_alphabet d (h d List.mem_cons_self)
    rw [List.map_cons, digitsOf_cons hp, hc, Option.bind_some,
      ih fun d' hd' => h d' (List.mem_cons_of_mem d hd')]
    rfl

/-- A text without padding characters is the text of its digits. -/
theorem alphabet_digitsOf {src : Bytes} {ds : List Nat} (h : digitsOf src = some ds)
    (hpad : 61 ∉ src) : ds.map stubAlphabet = src := by
  induction src generalizing ds with
  | nil =>
    obtain rfl := Option.some.inj h
    rfl
  | cons c src ih =>
    have hc : c ≠ 61 := fun e => hpad (e ▸ List.mem_cons_self)
    rw [digitsOf_cons hc] at h
    obtain ⟨v, hv, h⟩ := Option.bind_eq_some_iff.mp h
    obtain ⟨ds', hds, rfl⟩ := Option.map_eq_some_iff.mp h
    rw [List.map_cons, (stubChar_eq_some hv).2, ih hds (List.not_mem_of_not_mem_cons hpad)]

/-! ## 2. The decoder -/

/-- The octet that a digit completes: the top bits of what is pending with the digit. -/
theorem octet_of_pending {buf bits : Nat} {as bs : List Bool} (hb : bs.length = bits)
    (h : buf % 2 ^ (bits + 8) = value (as ++ bs)) :
    (buf >>> bits) &&& 255 = value as ∧ buf % 2 ^ bits = value bs := by
  have hv := value_lt bs
  rw [value_append, hb] at h
  rw [hb] at hv
  rw [and_byte, Nat.shiftRight_eq_div_pow]
  constructor
  · calc buf / 2 ^ bits % 2 ^ 8 = buf % (2 ^ bits * 2 ^ 8) / 2 ^ bits :=
          (Nat.mod_mul_right_div_self ..).symm
      _ = (value as * 2 ^ bits + value bs) / 2 ^ bits := by rw [← Nat.pow_add, h]
      _ = value as := by
          rw [Nat.mul_comm, Nat.mul_add_div (Nat.two_pow_pos bits), Nat.div_eq_of_lt hv,
            Nat.add_zero]
  · calc buf % 2 ^ bits = buf % 2 ^ (bits + 8) % 2 ^ bits :=
          (Nat.mod_mod_of_dvd _ (Nat.pow_dvd_pow 2 (by omega))).symm
      _ = value bs := by
          rw [h, Nat.add_comm, Nat.add_mul_mod_self_right, Nat.mod_eq_of_lt hv]

/-- A digit is shifted in below what is pending, and nothing of it is lost. -/
theorem pending_shift {buf bits v : Nat} {pend : List Bool} (hlen : pend.length = bits)
    (hbits : bits < 8) (hpend : buf % 2 ^ bits = value pend) (hv : v < 64) :
    (((buf <<< 6) ||| v) % 2 ^ 32) % 2 ^ (bits + 6) = value (pend ++ ofNat 6 v) := by
  rw [Nat.mod_mod_of_dvd _ (Nat.pow_dvd_pow 2 (by omega)), shiftLeft_or 6 hv, value_append,
    value_ofNat, length_ofNat, Nat.mod_eq_of_lt (show v < 2 ^ 6 from hv), ← hpend, Nat.pow_add,
    Nat.mul_comm (2 ^ bits), Nat.mod_mul, Nat.mul_comm (2 ^ 6)]
  have hlow : (buf * 2 ^ 6 + v) % 2 ^ 6 = v := by omega
  have hhigh : (buf * 2 ^ 6 + v) / 2 ^ 6 = buf := by omega
  rw [hlow, hhigh]
  omega

/-- The loop cuts octets off the bits that are pending and those of the digits that follow. -/
theorem stubDecodeLoop_eq (src : Bytes) {buf bits : Nat} {pend : List Bool}
    (hlen : pend.length = bits) (hbits : bits < 8) (hpend : buf % 2 ^ bits = value pend) :
    stubDecodeLoop src buf bits =
      (digitsOf src).map fun ds => octetsOf (pend ++ stream 6 ds) := by
  induction src generalizing buf bits pend with
  | nil =>
    rw [stubDecodeLoop, digitsOf_nil, Option.map_some, stream_nil, List.append_nil, octetsOf,
      groups_of_lt (by omega)]
    rfl
  | cons c src ih =>
    rw [stubDecodeLoop]
    by_cases hc : c = 61
    · rw [if_pos hc, hc, digitsOf_pad]
      exact ih hlen hbits hpend
    rw [if_neg hc, digitsOf_cons hc]
    cases hv : stubChar c with
    | none => rfl
    | some v =>
      have hshift := pending_shift hlen hbits hpend (stubChar_eq_some hv).1
      have hlen' : (pend ++ ofNat 6 v).length = bits + 6 := by
        rw [List.length_append, length_ofNat, hlen]
      simp only [Option.bind_some, Option.map_map]
      split
      next hemit =>
        -- the digit completes an octet
        generalize hbuf : ((buf <<< 6) ||| v) % 2 ^ 32 = buf' at hshift
        obtain ⟨as, bs, hcut, ha, hb⟩ : ∃ as bs, pend ++ ofNat 6 v = as ++ bs ∧ as.length = 8 ∧
            bs.length = bits + 6 - 8 :=
          ⟨_, _, (List.take_append_drop 8 _).symm, by rw [List.length_take]; omega,
            by rw [List.length_drop]; omega⟩
        have hwidth : bits + 6 = bits + 6 - 8 + 8 := by omega
        rw [hcut, hwidth] at hshift
        obtain ⟨hoctet, hrest⟩ := octet_of_pending hb hshift
        rw [ih hb (by omega) hrest, hoctet, Option.map_map]
        refine congrArg (Option.map · _) (funext fun ds => ?_)
        rw [Function.comp_apply, Function.comp_apply, stream_cons, ← List.append_assoc, hcut,
          List.append_assoc, octetsOf, octetsOf, groups_append (by omega) ha, List.map_cons]
      next hwait =>
        rw [ih hlen' (by omega) hshift]
        refine congrArg (Option.map · _) (funext fun ds => ?_)
        rw [Function.comp_apply, stream_cons, List.append_assoc]

/-- Decoding is reading digits of six bits as octets. -/
theorem stubDecode_eq (src : Bytes) :
    stubDecode src = (digitsOf src).map fun ds => octetsOf (stream 6 ds) :=
  @stubDecodeLoop_eq src 0 0 [] rfl (by decide) (Nat.mod_one 0)

/-! ## 3. The encoder -/

theorem octetBits_append (a b : Bytes) : octetBits (a ++ b) = octetBits a ++ octetBits b := by
  rw [octetBits, List.map_append, stream_append]
  rfl

theorem length_octetBits (b : Bytes) : (octetBits b).length = 8 * b.length := by
  rw [octetBits, length_stream, List.length_map]

theorem octets_lt (b : Bytes) : ∀ d ∈ b.map UInt8.toNat, d < 2 ^ 8 := by
  intro d hd
  obtain ⟨x, -, rfl⟩ := List.mem_map.mp hd
  exact x.toNat_lt

theorem octetsOf_octetBits (b : Bytes) : octetsOf (octetBits b) = b := by
  rw [octetsOf, octetBits, groups_stream (by omega) (octets_lt b), List.map_map]
  exact (List.map_congr_left fun x _ => UInt8.ofNat_toNat).trans (List.map_id b)

theorem octetBits_octetsOf (bs : List Bool) : octetBits (octetsOf bs) = whole 8 bs := by
  have hnat : (octetsOf bs).map UInt8.toNat = groups 8 bs := by
    rw [octetsOf, List.map_map]
    refine (List.map_congr_left fun d hd => ?_).trans (List.map_id _)
    exact (UInt8.toNat_ofNat_of_lt' (groups_lt d hd))
  rw [octetBits, hnat, stream_groups (by omega)]

/-- Octets hold the bits in whole groups, and these bits only. -/
theorem octetsOf_eq_iff {as bs : List Bool} :
    octetsOf as = octetsOf bs ↔ whole 8 as = whole 8 bs := by
  constructor
  · intro h
    rw [← octetBits_octetsOf, ← octetBits_octetsOf, h]
  · intro h
    rw [← octetsOf_octetBits (octetsOf as), ← octetsOf_octetBits (octetsOf bs),
      octetBits_octetsOf, octetBits_octetsOf, h]

/-- Encoding is reading padded octets as digits of six bits. -/
theorem stubEncode_eq (b : Bytes) :
    stubEncode b = (groups 6 (padded 6 (octetBits b))).map stubAlphabet := by
  induction b using stubEncode.induct with
  | case1 s0 s1 s2 rest ih =>
    have h0 := s0.toNat_lt
    have h1 := s1.toNat_lt
    have h2 := s2.toNat_lt
    have hbits : octetBits [s0, s1, s2] = stream 6 [s0.toNat / 4, s0.toNat % 4 * 16 + s1.toNat / 16,
        s1.toNat % 16 * 4 + s2.toNat / 64, s2.toNat % 64] := by
      refine value_inj (by simp [octetBits]) ?_
      simp only [octetBits, stream, List.map_cons, List.map_nil, List.flatMap_cons,
        List.flatMap_nil, List.append_nil, value_append, value_ofNat, length_ofNat,
        List.length_append]
      omega
    have hpadded : padded 6 (octetBits (s0 :: s1 :: s2 :: rest)) =
        octetBits [s0, s1, s2] ++ padded 6 (octetBits rest) := by
      have happ : octetBits (s0 :: s1 :: s2 :: rest) = octetBits [s0, s1, s2] ++ octetBits rest :=
        octetBits_append [s0, s1, s2] rest
      have hmod : (octetBits [s0, s1, s2] ++ octetBits rest).length % 6 =
          (octetBits rest).length % 6 := by
        rw [List.length_append, length_octetBits]
        simp only [List.length_cons, List.length_nil]
        omega
      rw [happ, padded, padded, hmod, List.append_assoc]
    rw [stubEncode_three, ih, hpadded, hbits, groups_stream_append (by omega)]
    · rfl
    · simp only [List.forall_mem_cons, List.not_mem_nil, false_implies, implies_true,
        and_true]
      omega
  | case2 s0 s1 =>
    have h0 := s0.toNat_lt
    have h1 := s1.toNat_lt
    have hbits : padded 6 (octetBits [s0, s1]) = stream 6 [s0.toNat / 4,
        s0.toNat % 4 * 16 + s1.toNat / 16, s1.toNat % 16 * 4] := by
      refine value_inj (by simp [octetBits, padded]) ?_
      simp only [octetBits, stream, padded, List.map_cons, List.map_nil, List.flatMap_cons,
        List.flatMap_nil, List.append_nil, value_append, value_ofNat, length_ofNat,
        List.length_append]
      simp only [Nat.reduceAdd, Nat.reduceMod, Nat.reduceSub, List.replicate, value,
        List.length_cons, List.length_nil, Bool.toNat_false]
      omega
    rw [stubEncode_two, hbits, groups_stream (by omega)]
    · rfl
    · simp only [List.forall_mem_cons, List.not_mem_nil, false_implies, implies_true,
        and_true]
      omega
  | case3 s0 =>
    have h0 := s0.toNat_lt
    have hbits : padded 6 (octetBits [s0]) = stream 6 [s0.toNat / 4, s0.toNat % 4 * 16] := by
      refine value_inj (by simp [octetBits, padded]) ?_
      simp only [octetBits, stream, padded, List.map_cons, List.map_nil, List.flatMap_cons,
        List.flatMap_nil, List.append_nil, value_append, value_ofNat, length_ofNat]
      simp only [Nat.reduceMod, Nat.reduceSub, List.replicate, value, List.length_cons,
        List.length_nil, Bool.toNat_false]
      omega
    rw [stubEncode_one, hbits, groups_stream (by omega)]
    · rfl
    · simp only [List.forall_mem_cons, List.not_mem_nil, false_implies, implies_true,
        and_true]
      omega
  | case4 => rfl

/-! ## 4. Spellings -/

/-- Two texts are spelled alike exactly if they decode alike. -/
theorem spelledAlike_iff {src src' : Bytes} :
    SpelledAlike src src' ↔ ∃ b, stubDecode src = some b ∧ stubDecode src' = some b := by
  constructor
  · rintro ⟨ds, ds', hds, hds', hwhole⟩
    refine ⟨octetsOf (stream 6 ds), by rw [stubDecode_eq, hds]; rfl, ?_⟩
    rw [stubDecode_eq, hds', Option.map_some, octetsOf_eq_iff.mpr hwhole]
  · rintro ⟨b, hb, hb'⟩
    rw [stubDecode_eq] at hb hb'
    obtain ⟨ds, hds, rfl⟩ := Option.map_eq_some_iff.mp hb
    obtain ⟨ds', hds', heq⟩ := Option.map_eq_some_iff.mp hb'
    exact ⟨ds, ds', hds, hds', octetsOf_eq_iff.mp heq.symm⟩

/-- **The codec regroups bits.**  Decoding reads digits of six bits as octets, encoding reads padded
octets as digits.  A text is accepted if it has characters of the alphabet and `=` only; two texts
decode alike exactly if their digits agree on the bits in whole octets; and the encoder gives a
text back exactly if it has no `=` and fewer than six bits dangle, all of them zero. -/
theorem base64_regroups :
    (∀ src, stubDecode src = (digitsOf src).map fun ds => octetsOf (stream 6 ds)) ∧
    (∀ b, stubEncode b = (groups 6 (padded 6 (octetBits b))).map stubAlphabet) ∧
    (∀ src, (stubDecode src).isSome = true ↔ ∀ c ∈ src, c = 61 ∨ c ∈ base64urlAlphabet) ∧
    (∀ src src', SpelledAlike src src' ↔ ∃ b, stubDecode src = some b ∧ stubDecode src' = some b) ∧
    ∀ src b, stubDecode src = some b → (stubEncode b = src ↔ 61 ∉ src ∧
      ∃ ds, digitsOf src = some ds ∧ (dangling 8 (stream 6 ds)).length < 6 ∧
        ∀ bit ∈ dangling 8 (stream 6 ds), bit = false) := by
  refine ⟨stubDecode_eq, stubEncode_eq, ?_, fun src src' => spelledAlike_iff, ?_⟩
  · intro src
    rw [stubDecode_eq, Option.isSome_map, digitsOf_isSome_iff]
    simp only [stubChar_isSome_iff]
  · intro src b hb
    rw [stubDecode_eq] at hb
    obtain ⟨ds, hds, rfl⟩ := Option.map_eq_some_iff.mp hb
    have hregroup := regrouped_eq_iff (v := 8) (w := 6) (by omega) (by omega) (digitsOf_lt hds)
    rw [stream_groups (by omega)] at hregroup
    rw [stubEncode_eq, octetBits_octetsOf]
    constructor
    · intro henc
      refine ⟨?_, ds, hds, hregroup.mp ?_⟩
      · rw [← henc]
        intro hmem
        obtain ⟨d, hd, hpad⟩ := List.mem_map.mp hmem
        exact (stubChar_alphabet d (groups_lt d hd)).2.1 hpad
      · have hdigits := digitsOf_alphabet
          (@groups_lt 6 (padded 6 (whole 8 (stream 6 ds))))
        rw [henc, hds] at hdigits
        exact (Option.some.inj hdigits).symm
    · rintro ⟨hpad, ds', hds', hdangling⟩
      obtain rfl := Option.some.inj (hds.symm.trans hds')
      rw [hregroup.mpr hdangling]
      exact alphabet_digitsOf hds hpad

variable {PKey : Type} {E : Env PKey}

theorem dot_not_mem_of_spelled {src : Bytes} {ds : List Nat} (h : digitsOf src = some ds) :
    dot ∉ src := by
  intro hmem
  have hdot := digitsOf_isSome_iff.mp (by rw [h]; rfl) dot hmem
  rw [stubChar_dot] at hdot
  exact hdot.elim (by decide) (by decide)

/-- **The strings that decode to one token.**  With the codec of the test build, they are its
signing input, a dot and any spelling of its signature that fits; so a token can be respelled in
its signature, and in nothing that is signed. -/
theorem spellings_of_token (hcodec : E.b64 = stubCodec) {str : Bytes} {pool : Pool} {t : Token}
    (h : decode E noDecodeFaults (some str) (some pool) = some t) (str' : Bytes) :
    decode E noDecodeFaults (some str') (some pool) = some t ↔
      str'.length ≤ maxJwtSize ∧ ∃ s s', str = t.signingInput ++ dot :: s ∧
        str' = t.signingInput ++ dot :: s' ∧ SpelledAlike s s' := by
  obtain ⟨hdr, p, s, hd⟩ := decode_sound h
  have hsig : ∀ {s : Bytes}, (if s = [] then t.signature = [] else E.b64.decode s =
      some t.signature) ↔ stubDecode s = some t.signature := by
    intro s
    rw [hcodec]
    split
    next hs =>
      rw [hs, show stubDecode [] = some [] from rfl, Option.some.injEq, eq_comm]
    next => exact Iff.rfl
  have hcut : ∀ s : Bytes, Separator.three dot hdr p s = t.signingInput ++ dot :: s := by
    intro s
    rw [hd.signingInput, Separator.three, List.append_assoc]
    rfl
  constructor
  · intro h'
    obtain ⟨hdr', p', s', hd'⟩ := decode_sound h'
    refine ⟨hd'.size, s, s', hcut s ▸ hd.cut, ?_, spelledAlike_iff.mpr ⟨t.signature, ?_, ?_⟩⟩
    · rw [hd'.cut, Separator.three, hd'.signingInput, List.append_assoc]
      rfl
    · exact hsig.mp hd.signature
    · exact hsig.mp hd'.signature
  · rintro ⟨hsize, s₀, s', hstr, rfl, hs⟩
    obtain rfl : s = s₀ := by
      have heq := hd.cut.symm.trans hstr
      rw [hcut] at heq
      exact (List.cons.inj (List.append_cancel_left heq)).2
    obtain ⟨b, hb, hb'⟩ := spelledAlike_iff.mp hs
    obtain rfl := Option.some.inj ((hsig.mp hd.signature).symm.trans hb)
    obtain ⟨-, ds', -, hds', -⟩ := hs
    refine decode_complete (h := hdr) (p := p) (s := s') { hd with
      size := hsize
      cut := (hcut s').symm
      dotFree := ⟨hd.dotFree.1, hd.dotFree.2.1, dot_not_mem_of_spelled hds'⟩
      signature := hsig.mpr hb' }

/-- The Ed25519 token with another last character, whose four low bits dangle, and a padding
character. -/
theorem spellings_of_token_ed25519 :
    decode (edFacts []).env noDecodeFaults
      (some (edSigningInput ++ dot :: (edSignature64.dropLast ++ ascii "P="))) (some ⟨⟩) =
        some edDecoded := by
  refine (spellings_of_token rfl (decode_edToken []) _).mpr ⟨by decide +kernel, edSignature64, _,
    by decide +kernel, rfl, ?_⟩
  exact spelledAlike_iff.mpr ⟨edSignature, by decide +kernel, by decide +kernel⟩

end NxeJwx
