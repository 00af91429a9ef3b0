/-
# Which entries abort a document

`nxe_jwx_parse_one_key` has three outcomes, and each of the four key parsers mixes the tests for
two of them: a member that is missing or has the wrong length skips the entry, a member that is
not base64url aborts the document.  So with two defects in one entry the order of the tests
decides.

`Aborts` says when an entry aborts, member by member in the order in which the code reads them.
A damaged entry (one with a member that is not base64url) aborts exactly when the damage is
`Reached`: when no earlier member already makes the code skip the entry.  That is always so for
OKP and oct keys, which have one member, and not always so for RSA and EC keys.
-/
import NxeJwx.EntryList

namespace NxeJwx

open FillSlots

variable {PKey : Type}

/-! ## 1. Reading a member -/

/-- The member is a non-empty string that is not valid base64url. -/
def Corrupt (E : Env PKey) (jwk : Json) (name : Bytes) : Prop :=
  ∃ s, jwk.stringAt name = some s ∧ s ≠ [] ∧ E.b64.decode s = none

/-- The member is a non-empty string. -/
def Present (jwk : Json) (name : Bytes) : Prop := ∃ s, jwk.stringAt name = some s ∧ s ≠ []

variable {E : Env PKey} {jwk : Json} {name : Bytes}

theorem Corrupt.present (h : Corrupt E jwk name) : Present jwk name := by
  obtain ⟨s, hs, hne, -⟩ := h
  exact ⟨s, hs, hne⟩

theorem Corrupt.not_octetsAt {b : Bytes} (h : Corrupt E jwk name) : ¬ OctetsAt E jwk name b := by
  rintro ⟨s, hs, -, hb⟩
  obtain ⟨s', hs', -, hnone⟩ := h
  obtain rfl := Option.some.inj (hs.symm.trans hs')
  exact absurd (hb.symm.trans hnone) (by simp)

/-- A member that is there is corrupt or spells octets. -/
theorem Present.corrupt_or (h : Present jwk name) :
    Corrupt E jwk name ∨ ∃ b, OctetsAt E jwk name b := by
  obtain ⟨s, hs, hne⟩ := h
  cases hd : E.b64.decode s with
  | none => exact .inl ⟨s, hs, hne, hd⟩
  | some b => exact .inr ⟨b, s, hs, hne, hd⟩

/-- A corrupt member is an error, whether or not its buffer can be had. -/
theorem b64urlField_of_corrupt (h : Corrupt E jwk name) (fault : Bool) :
    b64urlField E fault jwk name = .error := by
  obtain ⟨s, hs, hne, hd⟩ := h
  have hlen : s.length ≠ 0 := fun e => hne (List.length_eq_zero_iff.mp e)
  cases fault <;> simp [b64urlField, hs, hlen, hd]

/-- Without a fault nothing else is. -/
theorem b64urlField_eq_error (h : b64urlField E false jwk name = .error) :
    Corrupt E jwk name := by
  unfold b64urlField at h
  split at h
  · exact absurd h (by simp)
  next s hs =>
  split at h
  · exact absurd h (by simp)
  next hlen =>
  rw [if_neg (by decide)] at h
  split at h
  next hd => exact ⟨s, hs, fun e => hlen (by rw [e]; rfl), hd⟩
  · exact absurd h (by simp)

/-! ## 2. The entries that abort -/

/-- The entry aborts the document: a member is corrupt and the members before it do not make
the code skip the entry, or OpenSSL makes no key of an admissible material. -/
inductive Aborts (E : Env PKey) (jwk : Json) : Prop
  | rsaN (kty : jwk.stringAt (ascii "kty") = some (ascii "RSA"))
      (hn : Corrupt E jwk (ascii "n"))
  | rsaE {n : Bytes} (kty : jwk.stringAt (ascii "kty") = some (ascii "RSA"))
      (hn : OctetsAt E jwk (ascii "n") n) (he : Corrupt E jwk (ascii "e"))
  | ecX {c : EcCurve} (kty : jwk.stringAt (ascii "kty") = some (ascii "EC")) (row : c ∈ ecCurves)
      (crv : jwk.stringAt (ascii "crv") = some c.jwkCrv) (hx : Corrupt E jwk (ascii "x"))
  | ecY {c : EcCurve} {x : Bytes} (kty : jwk.stringAt (ascii "kty") = some (ascii "EC"))
      (row : c ∈ ecCurves) (crv : jwk.stringAt (ascii "crv") = some c.jwkCrv)
      (hx : OctetsAt E jwk (ascii "x") x) (xlen : x.length = c.coordLen)
      (hy : Corrupt E jwk (ascii "y"))
  | okpX {c : OkpCurve} (kty : jwk.stringAt (ascii "kty") = some (ascii "OKP"))
      (row : c ∈ okpCurves) (crv : jwk.stringAt (ascii "crv") = some c.jwkCrv)
      (hx : Corrupt E jwk (ascii "x"))
  | octK (hmac : E.haveHmac = true) (kty : jwk.stringAt (ascii "kty") = some (ascii "oct"))
      (hk : Corrupt E jwk (ascii "k"))
  | build {m : Material} (hd : Describes E jwk m) (ha : m.Admissible) (hm : m.kty ≠ .oct)
      (hp : m.pkey E.ossl = none)

/-- The entry is not for encryption and has no empty kid. -/
structure ForSigning (jwk : Json) : Prop where
  use : jwk.stringAt (ascii "use") ≠ some (ascii "enc")
  kid : jwk.stringAt (ascii "kid") ≠ some []

section Parsers

variable {f : EntryFaults}

theorem parseRsa_error (kty : jwk.stringAt (ascii "kty") = some (ascii "RSA")) {k : Key PKey}
    (h : (parseRsa E noEntryFaults k jwk).1 = .error) : Aborts E jwk := by
  unfold parseRsa at h
  split at h
  · next hn => exact .rsaN kty (b64urlField_eq_error hn)
  · exact absurd h (by simp)
  next n hn =>
  have hno := b64urlField_eq_ok hn
  split at h
  · next he => exact .rsaE kty hno (b64urlField_eq_error he)
  · exact absurd h (by simp)
  next e he =>
  simp only [noEntryFaults, Bool.false_eq_true, if_false] at h
  split at h
  · exact absurd h (by simp)
  next hbits =>
  split at h
  next hp =>
    rw [not_or, Nat.not_lt, Nat.not_lt] at hbits
    exact .build (.rsa kty hno (b64urlField_eq_ok he)) hbits (by simp [Material.kty]) hp
  · exact absurd h (by simp)

theorem parseEc_error (kty : jwk.stringAt (ascii "kty") = some (ascii "EC"))
    (h : (parseEc E noEntryFaults (labelled jwk) jwk).1 = .error) : Aborts E jwk := by
  unfold parseEc at h
  split at h
  · exact absurd h (by simp)
  next hcrv =>
  split at h
  · exact absurd h (by simp)
  next c hc =>
  obtain ⟨row, hname⟩ := lookupEcCurve_eq_some_iff.mp hc
  have hne : c.jwkCrv ≠ [] := fun e => hcrv (by rw [← hname, e]; rfl)
  have crv := crv_of_labelled hne hname.symm
  split at h
  · next hx => exact .ecX kty row crv (b64urlField_eq_error hx)
  · exact absurd h (by simp)
  next x hx =>
  split at h
  · exact absurd h (by simp)
  next hxl =>
  rw [ne_eq, not_not] at hxl
  split at h
  · next hy => exact .ecY kty row crv (b64urlField_eq_ok hx) hxl (b64urlField_eq_error hy)
  · exact absurd h (by simp)
  next y hy =>
  split at h
  · exact absurd h (by simp)
  next hyl =>
  rw [ne_eq, not_not] at hyl
  simp only [noEntryFaults, Bool.false_eq_true, if_false] at h
  split at h
  next hp =>
    refine .build (.ec kty row crv (b64urlField_eq_ok hx) hxl (b64urlField_eq_ok hy) hyl) trivial
      (by simp [Material.kty]) ?_
    rw [Material.pkey, point_ofBytes hxl hyl]
    exact hp
  · exact absurd h (by simp)

theorem parseOkp_error (kty : jwk.stringAt (ascii "kty") = some (ascii "OKP"))
    (h : (parseOkp E noEntryFaults (labelled jwk) jwk).1 = .error) : Aborts E jwk := by
  unfold parseOkp at h
  split at h
  · exact absurd h (by simp)
  next hcrv =>
  split at h
  · exact absurd h (by simp)
  next c hc =>
  obtain ⟨row, hname⟩ := lookupOkpCurve_eq_some_iff.mp hc
  have hne : c.jwkCrv ≠ [] := fun e => hcrv (by rw [← hname, e]; rfl)
  have crv := crv_of_labelled hne hname.symm
  split at h
  · next hx => exact .okpX kty row crv (b64urlField_eq_error hx)
  · exact absurd h (by simp)
  next x hx =>
  split at h
  · exact absurd h (by simp)
  next hxl =>
  rw [ne_eq, not_not] at hxl
  simp only [noEntryFaults, Bool.false_eq_true, if_false] at h
  split at h
  next hp =>
    exact .build (.okp kty row crv (b64urlField_eq_ok hx) hxl) trivial (by simp [Material.kty]) hp
  · exact absurd h (by simp)

theorem parseOct_error (hmac : E.haveHmac = true)
    (kty : jwk.stringAt (ascii "kty") = some (ascii "oct")) {k : Key PKey}
    (h : (parseOct E noEntryFaults k jwk).1 = .error) : Aborts E jwk := by
  unfold parseOct at h
  split at h
  · next hk => exact .octK hmac kty (b64urlField_eq_error hk)
  · exact absurd h (by simp)
  · split at h <;> exact absurd h (by simp)

theorem parseKty_error {kty : Bytes} (hkty : jwk.stringAt (ascii "kty") = some kty)
    (h : (parseKty E noEntryFaults kty (labelled jwk) jwk).1 = .error) : Aborts E jwk := by
  unfold parseKty at h
  split at h
  · next hn =>
    obtain rfl := (isName_iff (by decide)).mp hn
    exact parseRsa_error hkty h
  split at h
  · next hn =>
    obtain rfl := (isName_iff (by decide)).mp hn
    exact parseEc_error hkty h
  split at h
  · next hn =>
    obtain rfl := (isName_iff (by decide)).mp hn
    exact parseOkp_error hkty h
  split at h
  · next hn =>
    rw [Bool.and_eq_true] at hn
    obtain rfl := (isName_iff (by decide)).mp hn.2
    exact parseOct_error hn.1 hkty h
  · exact absurd h (by simp)

/-- The entry has one `kty`. -/
theorem kty_clash {a b : Bytes} (ha : jwk.stringAt (ascii "kty") = some a)
    (hb : jwk.stringAt (ascii "kty") = some b) (hne : a ≠ b) : False :=
  hne (Option.some.inj (ha.symm.trans hb))

/-- Conversely such an RSA entry is an error, whichever steps fail. -/
theorem parseRsa_of_aborts (h : Aborts E jwk)
    (hkty : jwk.stringAt (ascii "kty") = some (ascii "RSA")) :
    (parseRsa E f (labelled jwk) jwk).1 = .error := by
  cases h with
  | rsaN kty hn => simp only [parseRsa, b64urlField_of_corrupt hn]
  | rsaE kty hn he =>
    simp only [parseRsa, b64urlField_of_corrupt he]
    rcases b64urlField_of_octetsAt hn (f (.field (ascii "n"))) with ⟨-, hr⟩ | hr <;> rw [hr]
  | build hd ha hm hp =>
    cases hd with
    | @rsa n e kty hn he =>
      have hbits : ¬ (BigEndian.bitLength (BigEndian.ofBytes n) < minRsaBits ∨
          BigEndian.bitLength (BigEndian.ofBytes n) > maxRsaBits) := by
        rw [not_or, Nat.not_lt, Nat.not_lt]
        exact ha
      simp only [Material.pkey] at hp
      unfold parseRsa
      rcases b64urlField_of_octetsAt hn (f (.field (ascii "n"))) with ⟨-, hr⟩ | hr
      · rw [hr]
      rcases b64urlField_of_octetsAt he (f (.field (ascii "e"))) with ⟨-, hr'⟩ | hr'
      · rw [hr, hr']
      simp only [hr, hr', if_neg hbits, hp, ite_self]
      split <;> rfl
    | ec kty | okp kty | oct _ kty => exact (kty_clash kty hkty (by decide)).elim
  | ecX kty | ecY kty | okpX kty | octK _ kty => exact (kty_clash kty hkty (by decide)).elim

/-- ... and such an EC entry. -/
theorem parseEc_of_aborts (h : Aborts E jwk)
    (hkty : jwk.stringAt (ascii "kty") = some (ascii "EC")) :
    (parseEc E f (labelled jwk) jwk).1 = .error := by
  have hlookup : ∀ c ∈ ecCurves, lookupEcCurve c.jwkCrv = some c := fun c row =>
    lookupEcCurve_eq_some_iff.mpr ⟨row, rfl⟩
  cases h with
  | @ecX c kty row crv hx =>
    simp only [parseEc, labelled_crv crv, if_neg (jwkCrv_ne_nil_ec c row), hlookup c row,
      b64urlField_of_corrupt hx]
  | @ecY c x kty row crv hx xlen hy =>
    simp only [parseEc, labelled_crv crv, if_neg (jwkCrv_ne_nil_ec c row), hlookup c row,
      b64urlField_of_corrupt hy]
    rcases b64urlField_of_octetsAt hx (f (.field (ascii "x"))) with ⟨-, hr⟩ | hr
    · rw [hr]
    · simp only [hr, xlen, ne_eq, not_true_eq_false, if_false]
  | build hd ha hm hp =>
    cases hd with
    | @ec c x y kty row crv hx xlen hy ylen =>
      rw [Material.pkey, point_ofBytes xlen ylen] at hp
      simp only [parseEc, labelled_crv crv, if_neg (jwkCrv_ne_nil_ec c row), hlookup c row]
      rcases b64urlField_of_octetsAt hx (f (.field (ascii "x"))) with ⟨-, hr⟩ | hr
      · rw [hr]
      rcases b64urlField_of_octetsAt hy (f (.field (ascii "y"))) with ⟨-, hr'⟩ | hr'
      · simp only [hr, hr', xlen, ne_eq, not_true_eq_false, if_false]
      simp only [hr, hr', xlen, ylen, ne_eq, not_true_eq_false, if_false, hp, ite_self]
      split <;> rfl
    | rsa kty | okp kty | oct _ kty => exact (kty_clash kty hkty (by decide)).elim
  | rsaN kty | rsaE kty | okpX kty | octK _ kty => exact (kty_clash kty hkty (by decide)).elim

/-- ... and such an OKP entry. -/
theorem parseOkp_of_aborts (h : Aborts E jwk)
    (hkty : jwk.stringAt (ascii "kty") = some (ascii "OKP")) :
    (parseOkp E f (labelled jwk) jwk).1 = .error := by
  have hlookup : ∀ c ∈ okpCurves, lookupOkpCurve c.jwkCrv = some c := fun c row =>
    lookupOkpCurve_eq_some_iff.mpr ⟨row, rfl⟩
  cases h with
  | @okpX c kty row crv hx =>
    simp only [parseOkp, labelled_crv crv, if_neg (jwkCrv_ne_nil_okp c row), hlookup c row,
      b64urlField_of_corrupt hx]
  | build hd ha hm hp =>
    cases hd with
    | @okp c x kty row crv hx xlen =>
      simp only [Material.pkey] at hp
      simp only [parseOkp, labelled_crv crv, if_neg (jwkCrv_ne_nil_okp c row), hlookup c row]
      rcases b64urlField_of_octetsAt hx (f (.field (ascii "x"))) with ⟨-, hr⟩ | hr
      · rw [hr]
      · simp only [hr, xlen, ne_eq, not_true_eq_false, if_false, hp, ite_self]
    | rsa kty | ec kty | oct _ kty => exact (kty_clash kty hkty (by decide)).elim
  | rsaN kty | rsaE kty | ecX kty | ecY kty | octK _ kty =>
    exact (kty_clash kty hkty (by decide)).elim

/-- ... and such an oct entry, which only a build with HMAC reads. -/
theorem parseOct_of_aborts (h : Aborts E jwk)
    (hkty : jwk.stringAt (ascii "kty") = some (ascii "oct")) :
    E.haveHmac = true ∧ (parseOct E f (labelled jwk) jwk).1 = .error := by
  cases h with
  | octK hmac kty hk => exact ⟨hmac, by simp only [parseOct, b64urlField_of_corrupt hk]⟩
  | build hd ha hm =>
    cases hd with
    | oct => exact absurd rfl hm
    | rsa kty | ec kty | okp kty => exact (kty_clash kty hkty (by decide)).elim
  | rsaN kty | rsaE kty | ecX kty | ecY kty | okpX kty =>
    exact (kty_clash kty hkty (by decide)).elim

/-- An entry that aborts is of one of the four types. -/
theorem Aborts.kty_mem (h : Aborts E jwk) : ∃ kty ∈ [ascii "RSA", ascii "EC", ascii "OKP",
    ascii "oct"], jwk.stringAt (ascii "kty") = some kty := by
  cases h with
  | rsaN kty | rsaE kty | ecX kty | ecY kty | okpX kty | octK _ kty => exact ⟨_, by simp, kty⟩
  | build hd =>
    cases hd with
    | rsa kty | ec kty | okp kty | oct _ kty => exact ⟨_, by simp, kty⟩

/-- An entry that aborts is an error of the switch over the types. -/
theorem parseKty_of_aborts (h : Aborts E jwk) {kty : Bytes}
    (hkty : jwk.stringAt (ascii "kty") = some kty) :
    (parseKty E f kty (labelled jwk) jwk).1 = .error := by
  obtain ⟨h1, h2, h3, h4, h5, h6, h7, h8, h9, h10⟩ := isName_kty
  obtain ⟨kty', hmem, hkty'⟩ := h.kty_mem
  obtain rfl := Option.some.inj (hkty'.symm.trans hkty)
  simp only [List.mem_cons, List.not_mem_nil, or_false] at hmem
  rcases hmem with rfl | rfl | rfl | rfl
  · simp only [parseKty, h1, if_true, parseRsa_of_aborts h hkty]
  · simp only [parseKty, h2, h3, if_true, Bool.false_eq_true, if_false, parseEc_of_aborts h hkty]
  · simp only [parseKty, h4, h5, h6, if_true, Bool.false_eq_true, if_false,
      parseOkp_of_aborts h hkty]
  · obtain ⟨hmac, herr⟩ := parseOct_of_aborts (f := f) h hkty
    simp only [parseKty, h7, h8, h9, h10, hmac, Bool.and_self, if_true, Bool.false_eq_true,
      if_false, herr]

end Parsers

/-! ## 3. The outcomes of an entry -/

/-- An entry that aborts ends in `NGX_ERROR`, whichever steps fail. -/
theorem parseOneKey_of_aborts (hs : ForSigning jwk) (h : Aborts E jwk) (f : EntryFaults)
    (slot : Key PKey) : (parseOneKey E f slot jwk).1 = .error := by
  obtain ⟨kty, -, hkty⟩ := h.kty_mem
  rcases parseOneKey_eq hkty hs.use hs.kid slot (E := E) (f := f) with ⟨-, herr⟩ | heq
  · exact herr
  · have hr := parseKty_of_aborts h hkty (f := f)
    rw [heq]
    simp only [hr, reduceCtorEq, if_false]

/-- Without faults, no other entry does. -/
theorem parsedAlone_error_iff :
    (parsedAlone E jwk).1 = .error ↔ ForSigning jwk ∧ Aborts E jwk := by
  constructor
  · intro h
    cases hkty : jwk.stringAt (ascii "kty") with
    | none => exact absurd h (by simp [parsedAlone, parseOneKey, stringField, hkty])
    | some kty =>
      have henc : isName (ascii "enc") (ascii "enc") = true := by decide
      have hs : ForSigning jwk := by
        constructor
        · intro hu
          exact absurd h (by simp [parsedAlone, parseOneKey, stringField, hkty, hu, henc])
        · intro hk
          refine absurd h ?_
          simp only [parsedAlone, parseOneKey, stringField, hkty, hk]
          split <;> simp
      refine ⟨hs, ?_⟩
      rcases parseOneKey_eq hkty hs.use hs.kid .zero (E := E) (f := noEntryFaults) with
        ⟨⟨s, hf⟩, -⟩ | heq
      · exact absurd hf (by simp [noEntryFaults])
      · rw [parsedAlone, heq] at h
        simp only at h
        split at h
        · exact absurd h (by simp)
        · exact parseKty_error hkty h
  · rintro ⟨hs, h⟩
    exact parseOneKey_of_aborts hs h _ _

/-- Without faults, the entries that give a key are the usable ones. -/
theorem parsedAlone_ok_iff : (parsedAlone E jwk).1 = .ok ↔ ∃ m, Usable E jwk m := by
  constructor
  · intro h
    cases hp : parsedAlone E jwk with
    | mk rc k =>
      rw [hp] at h
      obtain rfl : rc = .ok := h
      obtain ⟨m, hm, -⟩ := parseOneKey_ok hp
      exact ⟨m, hm⟩
  · rintro ⟨m, hm⟩
    rw [parsedAlone, parseOneKey_noFaults hm]

/-! ## 4. Damage that is reached -/

/-- A member that the key type of the entry requires is corrupt. -/
inductive Damaged (E : Env PKey) (jwk : Json) : Prop
  | rsa (kty : jwk.stringAt (ascii "kty") = some (ascii "RSA"))
      (corrupt : Corrupt E jwk (ascii "n") ∨ Corrupt E jwk (ascii "e"))
  | ec {c : EcCurve} (kty : jwk.stringAt (ascii "kty") = some (ascii "EC")) (row : c ∈ ecCurves)
      (crv : jwk.stringAt (ascii "crv") = some c.jwkCrv)
      (corrupt : Corrupt E jwk (ascii "x") ∨ Corrupt E jwk (ascii "y"))
  | okp {c : OkpCurve} (kty : jwk.stringAt (ascii "kty") = some (ascii "OKP"))
      (row : c ∈ okpCurves) (crv : jwk.stringAt (ascii "crv") = some c.jwkCrv)
      (corrupt : Corrupt E jwk (ascii "x"))
  | oct (hmac : E.haveHmac = true) (kty : jwk.stringAt (ascii "kty") = some (ascii "oct"))
      (corrupt : Corrupt E jwk (ascii "k"))

/-- The first of two members does not make the code skip the entry: an RSA entry has a non-empty
`n`, and an EC entry has a non-empty `x` that does not decode to the wrong length. -/
structure Reached (E : Env PKey) (jwk : Json) : Prop where
  rsa : jwk.stringAt (ascii "kty") = some (ascii "RSA") → Present jwk (ascii "n")
  ec : jwk.stringAt (ascii "kty") = some (ascii "EC") → Present jwk (ascii "x") ∧
    ∀ c ∈ ecCurves, jwk.stringAt (ascii "crv") = some c.jwkCrv →
      ∀ x, OctetsAt E jwk (ascii "x") x → x.length = c.coordLen

theorem OctetsAt.present {b : Bytes} (h : OctetsAt E jwk name b) : Present jwk name := by
  obtain ⟨s, hs, hne, -⟩ := h
  exact ⟨s, hs, hne⟩

/-- The octets of `x` have the width of the one curve that the entry names. -/
theorem width_of_row {c : EcCurve} {x : Bytes} (row : c ∈ ecCurves)
    (crv : jwk.stringAt (ascii "crv") = some c.jwkCrv) (hx : OctetsAt E jwk (ascii "x") x)
    (xlen : x.length = c.coordLen) : ∀ c ∈ ecCurves, jwk.stringAt (ascii "crv") = some c.jwkCrv →
      ∀ x, OctetsAt E jwk (ascii "x") x → x.length = c.coordLen := by
  intro c' row' crv' x' hx'
  obtain rfl := Material.ecCurves_jwkCrv_inj c row c' row' (Option.some.inj (crv.symm.trans crv'))
  rw [hx'.unique hx, xlen]

/-- An entry that aborts was read up to the reason for it. -/
theorem Aborts.reached (h : Aborts E jwk) : Reached E jwk := by
  cases h with
  | rsaN kty hn =>
    exact ⟨fun _ => hn.present, fun h => (kty_clash kty h (by decide)).elim⟩
  | rsaE kty hn =>
    exact ⟨fun _ => hn.present, fun h => (kty_clash kty h (by decide)).elim⟩
  | ecX kty row crv hx =>
    exact ⟨fun h => (kty_clash kty h (by decide)).elim,
      fun _ => ⟨hx.present, fun _ _ _ _ hx' => absurd hx' hx.not_octetsAt⟩⟩
  | ecY kty row crv hx xlen =>
    exact ⟨fun h => (kty_clash kty h (by decide)).elim,
      fun _ => ⟨hx.present, width_of_row row crv hx xlen⟩⟩
  | okpX kty =>
    exact ⟨fun h => (kty_clash kty h (by decide)).elim, fun h => (kty_clash kty h (by decide)).elim⟩
  | octK _ kty =>
    exact ⟨fun h => (kty_clash kty h (by decide)).elim, fun h => (kty_clash kty h (by decide)).elim⟩
  | build hd ha hm =>
    cases hd with
    | rsa kty hn => exact ⟨fun _ => hn.present, fun h => (kty_clash kty h (by decide)).elim⟩
    | ec kty row crv hx xlen =>
      exact ⟨fun h => (kty_clash kty h (by decide)).elim,
        fun _ => ⟨hx.present, width_of_row row crv hx xlen⟩⟩
    | okp kty =>
      exact ⟨fun h => (kty_clash kty h (by decide)).elim,
        fun h => (kty_clash kty h (by decide)).elim⟩
    | oct => exact absurd rfl hm

/-- A damaged entry aborts exactly when its damage is reached. -/
theorem Damaged.aborts_iff (h : Damaged E jwk) : Aborts E jwk ↔ Reached E jwk := by
  refine ⟨Aborts.reached, ?_⟩
  intro hr
  cases h with
  | rsa kty corrupt =>
    rcases (hr.rsa kty).corrupt_or (E := E) with hn | ⟨n, hn⟩
    · exact .rsaN kty hn
    · exact .rsaE kty hn (corrupt.resolve_left fun hc => hc.not_octetsAt hn)
  | @ec c kty row crv corrupt =>
    obtain ⟨hpresent, hwidth⟩ := hr.ec kty
    rcases hpresent.corrupt_or (E := E) with hx | ⟨x, hx⟩
    · exact .ecX kty row crv hx
    · exact .ecY kty row crv hx (hwidth c row crv x hx)
        (corrupt.resolve_left fun hc => hc.not_octetsAt hx)
  | okp kty row crv corrupt => exact .okpX kty row crv corrupt
  | oct hmac kty corrupt => exact .octK hmac kty corrupt

/-- A damaged entry describes no material. -/
theorem Damaged.not_describes (h : Damaged E jwk) {m : Material} : ¬ Describes E jwk m := by
  intro hd
  cases hd with
  | rsa kty hn he =>
    cases h with
    | rsa _ corrupt => exact corrupt.elim (·.not_octetsAt hn) (·.not_octetsAt he)
    | ec kty' | okp kty' | oct _ kty' => exact kty_clash kty kty' (by decide)
  | ec kty row crv hx xlen hy =>
    cases h with
    | ec _ _ _ corrupt => exact corrupt.elim (·.not_octetsAt hx) (·.not_octetsAt hy)
    | rsa kty' | okp kty' | oct _ kty' => exact kty_clash kty kty' (by decide)
  | okp kty row crv hx =>
    cases h with
    | okp _ _ _ corrupt => exact corrupt.not_octetsAt hx
    | rsa kty' | ec kty' | oct _ kty' => exact kty_clash kty kty' (by decide)
  | oct hmac kty hk =>
    cases h with
    | oct _ _ corrupt => exact corrupt.not_octetsAt hk
    | rsa kty' | ec kty' | okp kty' => exact kty_clash kty kty' (by decide)

/-! ## 5. The document -/

section Document

variable {doc : Bytes} {entries : List Json}

/-- Whichever steps fail, an entry that aborts leaves the document without a keyset. -/
theorem jwksParse_of_aborts (hd : KeysArray E doc entries) {e : Json} (he : e ∈ entries)
    (hs : ForSigning e) (ha : Aborts E e) (F : ParseFaults) (pool : Pool) :
    jwksParse E F (some doc) (some pool) = none := by
  cases hJ : jwksParse E F (some doc) (some pool) with
  | none => rfl
  | some J =>
    obtain ⟨entries', hd', -, -, hab⟩ := jwksParse_some hJ
    obtain rfl := hd.unique hd'
    obtain ⟨i, hi⟩ := exists_mem_zipIdx he
    obtain ⟨kty, -, hkty⟩ := ha.kty_mem
    exact absurd (jwksOut_abort (isObject_of_stringAt hkty) (parseOneKey_of_aborts hs ha _ _))
      (hab (e, i) hi)

/-- When a document is rejected: an entry aborts it, or no entry is usable. -/
theorem jwksParse_none_iff_aborts (hd : KeysArray E doc entries) (pool : Pool) :
    jwksParse E noParseFaults (some doc) (some pool) = none ↔
      (∃ e ∈ entries, ForSigning e ∧ Aborts E e) ∨ ∀ e ∈ entries, ∀ m, ¬ Usable E e m := by
  simp only [jwksParse_eq_none_iff hd, parsedAlone_error_iff, ne_eq, parsedAlone_ok_iff,
    not_exists]

/-- **A corrupt member aborts the document when it is reached.**  Let a document hold an entry
for signing one of whose required members is not base64url.

* If the damage is reached, the document is rejected, whatever its other entries are and whichever
  steps of the parse fail.
* When no step fails, the document is rejected exactly when the damage is reached, or one of the
  other entries aborts it, or none of them is usable.
* If the damage is not reached, the entry counts for nothing: the document without it gives the
  same keys. -/
theorem corrupt_base64 (hd : KeysArray E doc entries) {e : Json} (he : e ∈ entries)
    (hs : ForSigning e) (hdam : Damaged E e) :
    (Reached E e → ∀ F pool, jwksParse E F (some doc) (some pool) = none) ∧
    (∀ before after pool, entries = before ++ e :: after →
      (jwksParse E noParseFaults (some doc) (some pool) = none ↔
        Reached E e ∨ (∃ e' ∈ before ++ after, ForSigning e' ∧ Aborts E e') ∨
          ∀ e' ∈ before ++ after, ∀ m, ¬ Usable E e' m)) ∧
    (¬ Reached E e → ∀ before after doc' pool, entries = before ++ e :: after →
      KeysArray E doc' (before ++ after) →
      (jwksParse E noParseFaults (some doc) (some pool)).map Jwks.walk =
        (jwksParse E noParseFaults (some doc') (some pool)).map Jwks.walk) := by
  refine ⟨?_, ?_, ?_⟩
  · intro hr
    exact jwksParse_of_aborts hd he hs (hdam.aborts_iff.mpr hr)
  · rintro before after pool rfl
    rw [jwksParse_none_iff_aborts hd pool, ← hdam.aborts_iff]
    have hmem : ∀ e', e' ∈ before ++ e :: after ↔ e' = e ∨ e' ∈ before ++ after := by
      intro e'
      simp only [List.mem_append, List.mem_cons]
      tauto
    have hnone : ∀ m, ¬ Usable E e m := fun m hm => hdam.not_describes hm.describes
    simp only [hmem, or_and_right, exists_or, exists_eq_left, or_imp, forall_and, forall_eq]
    constructor
    · rintro ((⟨-, ha⟩ | h) | ⟨-, h⟩)
      · exact .inl ha
      · exact .inr (.inl h)
      · exact .inr (.inr h)
    · rintro (ha | h | h)
      · exact .inl (.inl ⟨hs, ha⟩)
      · exact .inl (.inr h)
      · exact .inr ⟨hnone, h⟩
  · rintro hr before after doc' pool rfl hd'
    have hskip : (parsedAlone E e).1 = .declined := by
      cases hrc : (parsedAlone E e).1 with
      | declined => rfl
      | error => exact absurd (hdam.aborts_iff.mp (parsedAlone_error_iff.mp hrc).2) hr
      | ok =>
        obtain ⟨m, hm⟩ := parsedAlone_ok_iff.mp hrc
        exact (hdam.not_describes hm.describes).elim
    refine jwksParse_skip hd hd' ?_
    rw [List.filter_append, List.filter_append, List.filter_cons_of_neg (by simp [hskip])]

end Document

/-- The Ed25519 entry and an RSA entry with the given member, as a JWKS. -/
def edBesideRsa (name value : Bytes) : Bytes × Json :=
  ( ascii "\x7b\"keys\":[\x7b\"kty\":\"OKP\",\"crv\":\"Ed25519\",\"x\":\"" ++ edX64 ++
      ascii "\"\x7d,\x7b\"kty\":\"RSA\",\"" ++ name ++ ascii "\":\"" ++ value ++
      ascii "\"\x7d]\x7d",
    .object [(ascii "keys", .array [ edJwk [],
      .object [(ascii "kty", .string (ascii "RSA")), (name, .string value)] ])] )

/-- The entries of the two documents below. -/
theorem keysArray_besideRsa (name : Bytes) (h : name = ascii "e" ∨ name = ascii "n") :
    KeysArray (edFacts [edBesideRsa name (ascii "AA@AA")]).env
      (edBesideRsa name (ascii "AA@AA")).1
      [ edJwk [],
        .object [(ascii "kty", .string (ascii "RSA")), (name, .string (ascii "AA@AA"))] ] := by
  have hparse : (edFacts [edBesideRsa name (ascii "AA@AA")]).env.json.parseUntrusted
      (edBesideRsa name (ascii "AA@AA")).1 = some (edBesideRsa name (ascii "AA@AA")).2 := by
    rcases h with rfl | rfl <;>
      exact @Facts.parse_eq _ [edJwks, edKeyval] _ _ rfl (by decide +kernel) (by decide +kernel)
  refine ⟨?_, ⟨_, hparse, rfl, rfl⟩, by simp [maxJwksKeys]⟩
  rcases h with rfl | rfl <;> decide +kernel

/-- An RSA entry with a corrupt `e` and no `n` is skipped: the other key of the document is
returned. -/
theorem corrupt_base64_skipped :
    (∃ entries e, KeysArray (edFacts [edBesideRsa (ascii "e") (ascii "AA@AA")]).env
      (edBesideRsa (ascii "e") (ascii "AA@AA")).1 entries ∧ e ∈ entries ∧ ForSigning e ∧
      Damaged (edFacts [edBesideRsa (ascii "e") (ascii "AA@AA")]).env e) ∧
    (jwksParse (edFacts [edBesideRsa (ascii "e") (ascii "AA@AA")]).env noParseFaults
      (some (edBesideRsa (ascii "e") (ascii "AA@AA")).1) (some ⟨⟩)).map Jwks.walk =
        some [edKey []] :=
  ⟨⟨_, _, keysArray_besideRsa (ascii "e") (.inl rfl),
    List.mem_cons_of_mem _ List.mem_cons_self,
    ⟨fun h => absurd h (by decide), fun h => absurd h (by decide)⟩,
    .rsa rfl (.inr ⟨ascii "AA@AA", rfl, by decide, by decide +kernel⟩)⟩, by decide +kernel⟩

/-- An RSA entry with a corrupt `n` and no `e` aborts. -/
theorem corrupt_base64_reached :
    jwksParse (edFacts [edBesideRsa (ascii "n") (ascii "AA@AA")]).env noParseFaults
      (some (edBesideRsa (ascii "n") (ascii "AA@AA")).1) (some ⟨⟩) = none := by
  refine (corrupt_base64 (keysArray_besideRsa (ascii "n") (.inr rfl))
    (List.mem_cons_of_mem _ List.mem_cons_self) ⟨?_, ?_⟩ ?_).1 ?_ _ _
  · exact fun h => absurd h (by decide)
  · exact fun h => absurd h (by decide)
  · exact .rsa rfl (.inl ⟨ascii "AA@AA", rfl, by decide, by decide +kernel⟩)
  · exact ⟨fun _ => ⟨ascii "AA@AA", rfl, by decide⟩, fun h => absurd h (by decide)⟩

end NxeJwx
