/-
# The key of a JWK object

What `nxe_jwx_parse_one_key` makes of one entry of a JWKS.  An entry is `Usable` when it
describes an admissible material that OpenSSL has a handle for, is not for encryption and has
no empty kid.  A key comes out of usable entries only (`parseOneKey_ok`), and out of every one
of them unless a step of the parse fails, which is then an error of the whole entry
(`parseOneKey_of_usable`).
-/
import NxeJwx.Jwks

namespace NxeJwx

variable {PKey : Type}

/-! ## 1. The key of an entry -/

/-- The labels that a JWK object gives to its key. -/
def labelled (jwk : Json) : Key PKey :=
  { Key.zero with
    kid := (jwk.stringAt (ascii "kid")).getD []
    alg := (jwk.stringAt (ascii "alg")).getD []
    crv := (jwk.stringAt (ascii "crv")).getD [] }

/-- The key of a JWK object that describes `m`, before its thumbprint is computed. -/
def jwkKey (O : Ossl PKey) (jwk : Json) (m : Material) : Key PKey :=
  { (labelled jwk : Key PKey) with kty := m.kty, pkey := m.pkey O, hmacSecret := m.secret }

/-- The object describes `m`, which is admissible, and OpenSSL builds its handle; it is not for
encryption and has no empty kid. -/
structure Usable (E : Env PKey) (jwk : Json) (m : Material) : Prop where
  describes : Describes E jwk m
  admissible : m.Admissible
  made : m.kty = .oct ∨ (m.pkey E.ossl).isSome = true
  use : jwk.stringAt (ascii "use") ≠ some (ascii "enc")
  kid : jwk.stringAt (ascii "kid") ≠ some []

section Entry

variable {E : Env PKey} {f : EntryFaults} {jwk : Json}

theorem b64urlField_eq_ok {fault : Bool} {name b : Bytes}
    (h : b64urlField E fault jwk name = .ok b) : OctetsAt E jwk name b := by
  unfold b64urlField at h
  split at h
  · exact absurd h (by simp)
  next src hsrc =>
  split at h
  · exact absurd h (by simp)
  next hlen =>
  split at h
  · exact absurd h (by simp)
  split at h
  · exact absurd h (by simp)
  next out hout =>
  obtain rfl := Ret.ok.inj h
  exact ⟨src, hsrc, fun e => hlen (List.length_eq_zero_iff.mpr e), hout⟩

theorem b64urlField_of_octetsAt {name b : Bytes} (h : OctetsAt E jwk name b) (fault : Bool) :
    (fault = true ∧ b64urlField E fault jwk name = .error) ∨
      b64urlField E fault jwk name = .ok b := by
  obtain ⟨s, hs, hne, hb⟩ := h
  have hlen : s.length ≠ 0 := fun e => hne (List.length_eq_zero_iff.mp e)
  cases fault <;> simp [b64urlField, hs, hlen, hb]

/-- What a key parser may produce from the labelled slot: the key of an admissible material
that the object describes. -/
def KtyOk (E : Env PKey) (jwk : Json) (k : Key PKey) : Prop :=
  ∃ m, Describes E jwk m ∧ m.Admissible ∧ (m.kty = .oct ∨ (m.pkey E.ossl).isSome = true) ∧
    k = jwkKey E.ossl jwk m

theorem crv_of_labelled {c : Bytes} (hc : c ≠ []) (h : (labelled jwk : Key PKey).crv = c) :
    jwk.stringAt (ascii "crv") = some c := by
  simp only [labelled] at h
  cases hs : jwk.stringAt (ascii "crv") with
  | none => rw [hs] at h; exact absurd h.symm hc
  | some v => rw [hs] at h; simpa using h

/-! ## 2. A key comes out of usable entries only -/

theorem parseRsa_ok (kty : jwk.stringAt (ascii "kty") = some (ascii "RSA")) {k : Key PKey}
    (h : parseRsa E f (labelled jwk) jwk = (.ok, k)) : KtyOk E jwk k := by
  unfold parseRsa at h
  split at h
  · exact absurd h (by simp)
  · exact absurd h (by simp)
  next n hn =>
  split at h
  · exact absurd h (by simp)
  · exact absurd h (by simp)
  next e he =>
  split at h
  · exact absurd h (by simp)
  simp only at h
  split at h
  · exact absurd h (by simp)
  next hbits =>
  split at h
  · exact absurd h (by simp)
  next p hp =>
  split at hp
  · exact absurd hp (by simp)
  refine ⟨.rsa (BigEndian.ofBytes n) (BigEndian.ofBytes e),
    .rsa kty (b64urlField_eq_ok hn) (b64urlField_eq_ok he), ?_, .inr ?_, ?_⟩
  · rw [not_or, Nat.not_lt, Nat.not_lt] at hbits
    exact hbits
  · simp [Material.pkey, hp]
  · rw [← (Prod.mk.inj h).2]
    simp [jwkKey, Material.kty, Material.pkey, Material.secret, hp, labelled, Key.zero]

theorem point_ofBytes {c : EcCurve} {x y : Bytes} (hx : x.length = c.coordLen)
    (hy : y.length = c.coordLen) :
    Material.point c (BigEndian.ofBytes x) (BigEndian.ofBytes y) = 4 :: x ++ y := by
  rw [Material.point]
  nth_rewrite 1 [← hx]
  rw [← hy, BigEndian.toBytes_ofBytes, BigEndian.toBytes_ofBytes]

theorem parseEc_ok (kty : jwk.stringAt (ascii "kty") = some (ascii "EC")) {k : Key PKey}
    (h : parseEc E f (labelled jwk) jwk = (.ok, k)) : KtyOk E jwk k := by
  unfold parseEc at h
  split at h
  · exact absurd h (by simp)
  next hcrv =>
  split at h
  · exact absurd h (by simp)
  next c hc =>
  split at h
  · exact absurd h (by simp)
  · exact absurd h (by simp)
  next x hx =>
  split at h
  · exact absurd h (by simp)
  next hxl =>
  split at h
  · exact absurd h (by simp)
  · exact absurd h (by simp)
  next y hy =>
  split at h
  · exact absurd h (by simp)
  next hyl =>
  split at h
  · exact absurd h (by simp)
  simp only at h
  split at h
  · exact absurd h (by simp)
  next p hp =>
  split at hp
  · exact absurd hp (by simp)
  rw [ne_eq, not_not] at hxl hyl
  obtain ⟨row, hrow⟩ := lookupEcCurve_eq_some_iff.mp hc
  have hne : c.jwkCrv ≠ [] := fun e => hcrv (by rw [← hrow, e]; rfl)
  have hpkey : (Material.ec c (BigEndian.ofBytes x) (BigEndian.ofBytes y)).pkey E.ossl =
      some p := by
    rw [Material.pkey, point_ofBytes hxl hyl]
    exact hp
  refine ⟨.ec c (BigEndian.ofBytes x) (BigEndian.ofBytes y),
    .ec kty row (crv_of_labelled hne hrow.symm) (b64urlField_eq_ok hx) hxl
      (b64urlField_eq_ok hy) hyl, trivial, .inr ?_, ?_⟩
  · rw [hpkey]; rfl
  · rw [← (Prod.mk.inj h).2]
    simp [jwkKey, Material.kty, hpkey, Material.secret, labelled, Key.zero]

theorem parseOkp_ok (kty : jwk.stringAt (ascii "kty") = some (ascii "OKP")) {k : Key PKey}
    (h : parseOkp E f (labelled jwk) jwk = (.ok, k)) : KtyOk E jwk k := by
  unfold parseOkp at h
  split at h
  · exact absurd h (by simp)
  next hcrv =>
  split at h
  · exact absurd h (by simp)
  next c hc =>
  split at h
  · exact absurd h (by simp)
  · exact absurd h (by simp)
  next x hx =>
  split at h
  · exact absurd h (by simp)
  next hxl =>
  split at h
  · exact absurd h (by simp)
  next p hp =>
  split at hp
  · exact absurd hp (by simp)
  rw [ne_eq, not_not] at hxl
  obtain ⟨row, hrow⟩ := lookupOkpCurve_eq_some_iff.mp hc
  have hne : c.jwkCrv ≠ [] := fun e => hcrv (by rw [← hrow, e]; rfl)
  refine ⟨.okp c x, .okp kty row (crv_of_labelled hne hrow.symm) (b64urlField_eq_ok hx) hxl,
    trivial, .inr ?_, ?_⟩
  · simp [Material.pkey, hp]
  · rw [← (Prod.mk.inj h).2]
    simp [jwkKey, Material.kty, Material.pkey, Material.secret, hp, labelled, Key.zero]

theorem parseOct_ok (hmac : E.haveHmac = true)
    (kty : jwk.stringAt (ascii "kty") = some (ascii "oct")) {k : Key PKey}
    (h : parseOct E f (labelled jwk) jwk = (.ok, k)) : KtyOk E jwk k := by
  unfold parseOct at h
  split at h
  · exact absurd h (by simp)
  · exact absurd h (by simp)
  next s hs =>
  split at h
  · exact absurd h (by simp)
  next hlen =>
  refine ⟨.oct s, .oct hmac kty (b64urlField_eq_ok hs), ?_, .inl rfl, ?_⟩
  · exact fun e => hlen (by rw [e]; rfl)
  · rw [← (Prod.mk.inj h).2]
    simp [jwkKey, Material.kty, Material.pkey, Material.secret, labelled, Key.zero]

theorem dupStrToPool_eq_some {fault : Bool} {str s : Bytes}
    (h : dupStrToPool fault str = some s) : s = str := by
  unfold dupStrToPool at h
  split at h
  · next h0 =>
    rw [List.length_eq_zero_iff.mp h0]
    exact (Option.some.inj h).symm
  · split at h
    · exact absurd h (by simp)
    · exact (Option.some.inj h).symm

theorem parseKty_ok {kty : Bytes} (hkty : jwk.stringAt (ascii "kty") = some kty) {k : Key PKey}
    (h : parseKty E f kty (labelled jwk) jwk = (.ok, k)) : KtyOk E jwk k := by
  unfold parseKty at h
  split at h
  · next hn =>
    obtain rfl := (isName_iff (by decide)).mp hn
    exact parseRsa_ok hkty h
  split at h
  · next hn =>
    obtain rfl := (isName_iff (by decide)).mp hn
    exact parseEc_ok hkty h
  split at h
  · next hn =>
    obtain rfl := (isName_iff (by decide)).mp hn
    exact parseOkp_ok hkty h
  split at h
  · next hn =>
    rw [Bool.and_eq_true] at hn
    obtain rfl := (isName_iff (by decide)).mp hn.2
    exact parseOct_ok hn.1 hkty h
  · exact absurd h (by simp)

/-- Whatever steps fail, a key that comes out of an entry is the key of a material that makes
the entry usable. -/
theorem parseOneKey_ok {slot k : Key PKey} (h : parseOneKey E f slot jwk = (.ok, k)) :
    ∃ m, Usable E jwk m ∧
      k = (jwkThumbprint E (fun s => f (.thumbprint s)) (jwkKey E.ossl jwk m)).2 := by
  unfold parseOneKey at h
  split at h
  · exact absurd h (by simp)
  next kty hkty =>
  split at h
  · exact absurd h (by simp)
  next huse =>
  simp only at h
  split at h
  · exact absurd h (by simp)
  next hkid =>
  split at h
  case h_2 => exact absurd h (by simp)
  next kid alg crv hdk hda hdc =>
  have hk : ({ (Key.zero : Key PKey) with kid := kid, alg := alg, crv := crv }) = labelled jwk := by
    rw [dupStrToPool_eq_some hdk, dupStrToPool_eq_some hda, dupStrToPool_eq_some hdc]
    rfl
  simp only [hk] at h
  cases hr : parseKty E f kty (labelled jwk) jwk with
  | mk rc k' =>
    rw [hr] at h
    simp only at h
    split at h
    case isFalse hne => exact absurd (Prod.mk.inj h).1 hne
    next hok =>
    subst hok
    obtain ⟨m, hdesc, hadm, hmade, rfl⟩ := parseKty_ok hkty hr
    refine ⟨m, ⟨hdesc, hadm, hmade, ?_, ?_⟩, (Prod.mk.inj h).2.symm⟩
    · intro hu
      have henc : isName (ascii "enc") (ascii "enc") = true := by decide
      exact huse (by simp [stringField, hu, henc])
    · intro hu
      exact hkid (by simp [stringField, hu])

/-! ## 3. A key comes out of every usable entry, or a step failed -/

/-- A parser with faults `f` returns `k`, or one of its steps fails and it returns an
error. -/
def Settles (f : EntryFaults) (r : Rc × Key PKey) (k : Key PKey) : Prop :=
  ((∃ s, f s = true) ∧ r.1 = .error) ∨ r = (.ok, k)

/-- The names of the key types are told apart. -/
theorem isName_kty : isName (ascii "RSA") (ascii "RSA") = true ∧
    isName (ascii "EC") (ascii "RSA") = false ∧ isName (ascii "EC") (ascii "EC") = true ∧
    isName (ascii "OKP") (ascii "RSA") = false ∧ isName (ascii "OKP") (ascii "EC") = false ∧
    isName (ascii "OKP") (ascii "OKP") = true ∧ isName (ascii "oct") (ascii "RSA") = false ∧
    isName (ascii "oct") (ascii "EC") = false ∧ isName (ascii "oct") (ascii "OKP") = false ∧
    isName (ascii "oct") (ascii "oct") = true := by decide

/-- The `crv` of the labelled slot, for an object that names a curve. -/
theorem labelled_crv {c : Bytes} (h : jwk.stringAt (ascii "crv") = some c) :
    (labelled jwk : Key PKey).crv = c := by
  simp [labelled, h]

theorem jwkCrv_ne_nil_ec : ∀ c ∈ ecCurves, c.jwkCrv.length ≠ 0 := by decide

theorem jwkCrv_ne_nil_okp : ∀ c ∈ okpCurves, c.jwkCrv.length ≠ 0 := by decide

theorem settles_rsa {n e : Bytes} {p : PKey} (hn : OctetsAt E jwk (ascii "n") n)
    (he : OctetsAt E jwk (ascii "e") e)
    (hb : minRsaBits ≤ BigEndian.bitLength (BigEndian.ofBytes n) ∧
      BigEndian.bitLength (BigEndian.ofBytes n) ≤ maxRsaBits)
    (hp : E.ossl.rsaFromData (BigEndian.ofBytes n) (BigEndian.ofBytes e) = some p)
    (k : Key PKey) :
    Settles f (parseRsa E f k jwk) { k with pkey := some p, kty := .rsa } := by
  have hb' : ¬ (BigEndian.bitLength (BigEndian.ofBytes n) < minRsaBits ∨
      BigEndian.bitLength (BigEndian.ofBytes n) > maxRsaBits) := by omega
  unfold parseRsa
  rcases b64urlField_of_octetsAt hn (f (.field (ascii "n"))) with ⟨hf, hr⟩ | hr
  · exact .inl ⟨⟨_, hf⟩, by rw [hr]⟩
  rcases b64urlField_of_octetsAt he (f (.field (ascii "e"))) with ⟨hf, hr'⟩ | hr'
  · exact .inl ⟨⟨_, hf⟩, by rw [hr, hr']⟩
  simp only [hr, hr', if_neg hb', hp]
  by_cases hbn : f .bignum = true
  · exact .inl ⟨⟨_, hbn⟩, by rw [if_pos hbn]⟩
  by_cases hbuild : f .build = true
  · exact .inl ⟨⟨_, hbuild⟩, by rw [if_neg hbn, if_pos hbuild]⟩
  · exact .inr (by rw [if_neg hbn, if_neg hbuild])

theorem settles_ec {c : EcCurve} {x y : Bytes} {p : PKey} (row : c ∈ ecCurves)
    (hx : OctetsAt E jwk (ascii "x") x) (xlen : x.length = c.coordLen)
    (hy : OctetsAt E jwk (ascii "y") y) (ylen : y.length = c.coordLen)
    (hp : E.ossl.ecFromData c.osslName (4 :: x ++ y) = some p) {k : Key PKey}
    (hk : k.crv = c.jwkCrv) :
    Settles f (parseEc E f k jwk) { k with pkey := some p, kty := .ec } := by
  have hrow : lookupEcCurve c.jwkCrv = some c := lookupEcCurve_eq_some_iff.mpr ⟨row, rfl⟩
  unfold parseEc
  simp only [hk, if_neg (jwkCrv_ne_nil_ec c row), hrow]
  rcases b64urlField_of_octetsAt hx (f (.field (ascii "x"))) with ⟨hf, hr⟩ | hr
  · exact .inl ⟨⟨_, hf⟩, by rw [hr]⟩
  rcases b64urlField_of_octetsAt hy (f (.field (ascii "y"))) with ⟨hf, hr'⟩ | hr'
  · exact .inl ⟨⟨_, hf⟩, by simp only [hr, hr', xlen, ne_eq, not_true_eq_false, if_false]⟩
  simp only [hr, hr', xlen, ylen, ne_eq, not_true_eq_false, if_false, hp]
  by_cases hpoint : f .point = true
  · exact .inl ⟨⟨_, hpoint⟩, by rw [if_pos hpoint]⟩
  by_cases hbuild : f .build = true
  · exact .inl ⟨⟨_, hbuild⟩, by rw [if_neg hpoint, if_pos hbuild]⟩
  · exact .inr (by rw [if_neg hpoint, if_neg hbuild])

theorem settles_okp {c : OkpCurve} {x : Bytes} {p : PKey} (row : c ∈ okpCurves)
    (hx : OctetsAt E jwk (ascii "x") x) (xlen : x.length = c.keyLen)
    (hp : E.ossl.newRawPublicKey c.nid x = some p) {k : Key PKey} (hk : k.crv = c.jwkCrv) :
    Settles f (parseOkp E f k jwk) { k with pkey := some p, kty := .okp } := by
  have hrow : lookupOkpCurve c.jwkCrv = some c := lookupOkpCurve_eq_some_iff.mpr ⟨row, rfl⟩
  unfold parseOkp
  simp only [hk, if_neg (jwkCrv_ne_nil_okp c row), hrow]
  rcases b64urlField_of_octetsAt hx (f (.field (ascii "x"))) with ⟨hf, hr⟩ | hr
  · exact .inl ⟨⟨_, hf⟩, by rw [hr]⟩
  simp only [hr, xlen, ne_eq, not_true_eq_false, if_false, hp]
  by_cases hbuild : f .build = true
  · exact .inl ⟨⟨_, hbuild⟩, by rw [if_pos hbuild]⟩
  · exact .inr (by rw [if_neg hbuild])

theorem settles_oct {s : Bytes} (hs : OctetsAt E jwk (ascii "k") s) (hne : s ≠ [])
    (k : Key PKey) : Settles f (parseOct E f k jwk) { k with hmacSecret := s, kty := .oct } := by
  have hlen : s.length ≠ 0 := fun e => hne (List.length_eq_zero_iff.mp e)
  unfold parseOct
  rcases b64urlField_of_octetsAt hs (f (.field (ascii "k"))) with ⟨hf, hr⟩ | hr
  · exact .inl ⟨⟨_, hf⟩, by rw [hr]⟩
  · exact .inr (by simp only [hr, if_neg hlen])

theorem settles_kty {m : Material} (hd : Describes E jwk m) (ha : m.Admissible)
    (hm : m.kty = .oct ∨ (m.pkey E.ossl).isSome = true) :
    Settles f (parseKty E f m.kty.jwkName (labelled jwk) jwk) (jwkKey E.ossl jwk m) := by
  obtain ⟨h1, h2, h3, h4, h5, h6, h7, h8, h9, h10⟩ := isName_kty
  cases hd with
  | @rsa n e kty hn he =>
    obtain ⟨p, hp⟩ := Option.isSome_iff_exists.mp (hm.resolve_left (by simp [Material.kty]))
    have hkey : jwkKey E.ossl jwk (.rsa (BigEndian.ofBytes n) (BigEndian.ofBytes e)) =
        { (labelled jwk : Key PKey) with pkey := some p, kty := .rsa } := by
      rw [jwkKey, hp]
      rfl
    rw [hkey]
    simp only [Material.kty, Kty.jwkName, parseKty, h1, if_true]
    exact settles_rsa hn he ha hp _
  | @ec c x y kty row crv hx xlen hy ylen =>
    obtain ⟨p, hp⟩ := Option.isSome_iff_exists.mp (hm.resolve_left (by simp [Material.kty]))
    have hkey : jwkKey E.ossl jwk (.ec c (BigEndian.ofBytes x) (BigEndian.ofBytes y)) =
        { (labelled jwk : Key PKey) with pkey := some p, kty := .ec } := by
      rw [jwkKey, hp]
      rfl
    rw [hkey]
    rw [Material.pkey, point_ofBytes xlen ylen] at hp
    simp only [Material.kty, Kty.jwkName, parseKty, h2, h3, if_true, Bool.false_eq_true, if_false]
    exact settles_ec row hx xlen hy ylen hp (labelled_crv crv)
  | @okp c x kty row crv hx xlen =>
    obtain ⟨p, hp⟩ := Option.isSome_iff_exists.mp (hm.resolve_left (by simp [Material.kty]))
    have hkey : jwkKey E.ossl jwk (.okp c x) =
        { (labelled jwk : Key PKey) with pkey := some p, kty := .okp } := by
      rw [jwkKey, hp]
      rfl
    rw [hkey]
    simp only [Material.kty, Kty.jwkName, parseKty, h4, h5, h6, if_true, Bool.false_eq_true,
      if_false]
    exact settles_okp row hx xlen hp (labelled_crv crv)
  | @oct s hmac kty hs =>
    simp only [Material.kty, Kty.jwkName, parseKty, h7, h8, h9, h10, hmac, Bool.and_self,
      if_true, Bool.false_eq_true, if_false]
    exact settles_oct hs ha _

theorem dupStrToPool_or (fault : Bool) (s : Bytes) :
    (fault = true ∧ dupStrToPool fault s = none) ∨ dupStrToPool fault s = some s := by
  unfold dupStrToPool
  split
  · next h0 => exact .inr (by rw [List.length_eq_zero_iff.mp h0])
  · cases fault <;> simp

/-- An entry with a `kty` that is not for encryption and has no empty kid comes down to the
parser of its key type, unless one of its labels cannot be copied. -/
theorem parseOneKey_eq {kty : Bytes} (hkty : jwk.stringAt (ascii "kty") = some kty)
    (huse : jwk.stringAt (ascii "use") ≠ some (ascii "enc"))
    (hkid : jwk.stringAt (ascii "kid") ≠ some []) (slot : Key PKey) :
    ((∃ s, f s = true) ∧ (parseOneKey E f slot jwk).1 = .error) ∨
      parseOneKey E f slot jwk =
        (let r := parseKty E f kty (labelled jwk) jwk
        if r.1 = .ok then (.ok, (jwkThumbprint E (fun s => f (.thumbprint s)) r.2).2) else r) := by
  have huse' : ((stringField jwk (ascii "use")).any fun use => isName use (ascii "enc")) =
      false := by
    rw [Bool.eq_false_iff]
    intro hany
    obtain ⟨u, hu, hn⟩ := (Option.any_eq_true _ _).mp hany
    exact huse (by rw [← (isName_iff (by decide)).mp hn]; exact hu)
  have hkid' : ((stringField jwk (ascii "kid")).any fun kid => decide (kid.length = 0)) =
      false := by
    rw [Bool.eq_false_iff]
    intro hany
    obtain ⟨u, hu, hn⟩ := (Option.any_eq_true _ _).mp hany
    exact hkid (by rw [← List.length_eq_zero_iff.mp (of_decide_eq_true hn)]; exact hu)
  have hkty' : stringField jwk (ascii "kty") = some kty := hkty
  simp only [parseOneKey, hkty', huse', hkid', Bool.false_eq_true, if_false]
  rcases dupStrToPool_or (f .dupKid) ((stringField jwk (ascii "kid")).getD []) with ⟨hf, hr⟩ | hr
  · exact .inl ⟨⟨_, hf⟩, by rw [hr]⟩
  rcases dupStrToPool_or (f .dupAlg) ((stringField jwk (ascii "alg")).getD []) with ⟨hf, hr2⟩ | hr2
  · exact .inl ⟨⟨_, hf⟩, by rw [hr, hr2]⟩
  rcases dupStrToPool_or (f .dupCrv) ((stringField jwk (ascii "crv")).getD []) with ⟨hf, hr3⟩ | hr3
  · exact .inl ⟨⟨_, hf⟩, by rw [hr, hr2, hr3]⟩
  simp only [hr, hr2, hr3]
  exact .inr rfl

/-- Every usable entry gives its key, unless a step fails; then it gives an error. -/
theorem parseOneKey_of_usable {m : Material} (h : Usable E jwk m) (slot : Key PKey) :
    Settles f (parseOneKey E f slot jwk)
      (jwkThumbprint E (fun s => f (.thumbprint s)) (jwkKey E.ossl jwk m)).2 := by
  rcases parseOneKey_eq h.describes.kty_eq h.use h.kid slot (E := E) (f := f) with herr | heq
  · exact .inl herr
  rw [heq]
  rcases settles_kty h.describes h.admissible h.made (f := f) with ⟨hf, hr⟩ | hr
  · refine .inl ⟨hf, ?_⟩
    rw [if_neg (by rw [hr]; decide)]
    exact hr
  · exact .inr (by rw [hr]; rfl)

/-- Without faults the error is excluded. -/
theorem parseOneKey_noFaults {m : Material} (h : Usable E jwk m) (slot : Key PKey) :
    parseOneKey E noEntryFaults slot jwk =
      (.ok, (jwkThumbprint E noThumbprintFaults (jwkKey E.ossl jwk m)).2) := by
  rcases parseOneKey_of_usable h slot (f := noEntryFaults) with ⟨⟨s, hs⟩, -⟩ | hr
  · exact absurd hs (by simp [noEntryFaults])
  · exact hr

end Entry

end NxeJwx
