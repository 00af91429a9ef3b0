/-
# The algorithm table and the two curve tables

`nxe_jwx_algs` (`nxe_jwx_jws.c`) and the curve tables of `nxe_jwx_jwks.c`, with the scans
that look a row up by name or, for a key loaded from PEM, from the OpenSSL handle.

The scans compare with `strlen` and `strncmp`; since no name in the tables contains a NUL
they find exactly the row of that name (`lookupAlg_eq_some_iff` and its siblings), and since
every column that is scanned is free of repetitions a row is determined by any of them.
-/
import NxeJwx.Env

namespace NxeJwx

/-! ## 1. Algorithms -/

/-- `nxe_jwx_alg_family_t`. -/
inductive AlgFamily where
  | rsa
  | rsaPss
  | ecdsa
  | eddsa
  | hmac
  deriving DecidableEq, Repr

/-- `nxe_jwx_alg_t`. -/
structure Alg where
  name : Bytes
  family : AlgFamily
  digest : Option Digest
  ecCurve : Option Bytes
  ecCoordLen : Nat
  deriving DecidableEq, Repr

/-- The rows of `nxe_jwx_algs` that every build has. -/
def publicKeyAlgs : List Alg :=
  [ ⟨ascii "RS256", .rsa, some .sha256, none, 0⟩,
    ⟨ascii "RS384", .rsa, some .sha384, none, 0⟩,
    ⟨ascii "RS512", .rsa, some .sha512, none, 0⟩,
    ⟨ascii "PS256", .rsaPss, some .sha256, none, 0⟩,
    ⟨ascii "PS384", .rsaPss, some .sha384, none, 0⟩,
    ⟨ascii "PS512", .rsaPss, some .sha512, none, 0⟩,
    ⟨ascii "ES256", .ecdsa, some .sha256, some (ascii "prime256v1"), 32⟩,
    ⟨ascii "ES384", .ecdsa, some .sha384, some (ascii "secp384r1"), 48⟩,
    ⟨ascii "ES512", .ecdsa, some .sha512, some (ascii "secp521r1"), 66⟩,
    ⟨ascii "ES256K", .ecdsa, some .sha256, some (ascii "secp256k1"), 32⟩,
    ⟨ascii "EdDSA", .eddsa, none, none, 0⟩ ]

/-- The rows under `NXE_JWX_HAVE_HMAC`. -/
def hmacAlgs : List Alg :=
  [ ⟨ascii "HS256", .hmac, some .sha256, none, 0⟩,
    ⟨ascii "HS384", .hmac, some .sha384, none, 0⟩,
    ⟨ascii "HS512", .hmac, some .sha512, none, 0⟩ ]

/-- `nxe_jwx_algs`, up to its terminating row. -/
def algs (haveHmac : Bool) : List Alg :=
  publicKeyAlgs ++ if haveHmac then hmacAlgs else []

/-- `nxe_jwx_lookup_alg`. -/
def lookupAlg (haveHmac : Bool) (alg : Bytes) : Option Alg :=
  (algs haveHmac).find? fun a => isName alg a.name

/-! ## 2. Curves -/

/-- `nxe_jwx_ec_curve_t`. -/
structure EcCurve where
  jwkCrv : Bytes
  osslName : Bytes
  coordLen : Nat
  deriving DecidableEq, Repr

/-- `nxe_jwx_ec_curves`. -/
def ecCurves : List EcCurve :=
  [ ⟨ascii "P-256", ascii "prime256v1", 32⟩,
    ⟨ascii "P-384", ascii "secp384r1", 48⟩,
    ⟨ascii "P-521", ascii "secp521r1", 66⟩,
    ⟨ascii "secp256k1", ascii "secp256k1", 32⟩ ]

/-- `nxe_jwx_lookup_ec_curve`. -/
def lookupEcCurve (crv : Bytes) : Option EcCurve :=
  ecCurves.find? fun c => isName crv c.jwkCrv

/-- `nxe_jwx_okp_curve_t`.  The `nid` column is both a curve and a key type. -/
structure OkpCurve where
  jwkCrv : Bytes
  nid : PkeyId
  keyLen : Nat
  deriving DecidableEq, Repr

/-- `nxe_jwx_okp_curves`. -/
def okpCurves : List OkpCurve :=
  [ ⟨ascii "Ed25519", .ed25519, 32⟩,
    ⟨ascii "Ed448", .ed448, 57⟩ ]

/-- `nxe_jwx_lookup_okp_curve`. -/
def lookupOkpCurve (crv : Bytes) : Option OkpCurve :=
  okpCurves.find? fun c => isName crv c.jwkCrv

section Reverse

variable {PKey : Type}

/-- `nxe_jwx_ec_curve_from_pkey`. -/
def ecCurveFromPkey (O : Ossl PKey) (pkey : PKey) : Option EcCurve :=
  match O.groupName pkey with
  | none => none
  | some name => ecCurves.find? fun c => c.osslName == name

/-- `nxe_jwx_okp_curve_from_pkey`. -/
def okpCurveFromPkey (O : Ossl PKey) (pkey : PKey) : Option OkpCurve :=
  okpCurves.find? fun c => c.nid == O.baseId pkey

end Reverse

/-! ## 3. A scan finds the row of that name

The three columns that are scanned by name hold NUL-free strings without repetition. -/

/-- A scan by name over a table whose names are NUL-free and distinct. -/
theorem find_isName_iff {α : Type} {name : α → Bytes} {l : List α} {s : Bytes} {a : α}
    (h0 : ∀ x ∈ l, (0 : UInt8) ∉ name x) (hnd : (l.map name).Nodup) :
    l.find? (fun x => isName s (name x)) = some a ↔ a ∈ l ∧ name a = s := by
  induction l with
  | nil => simp
  | cons x l ih =>
    have hx := h0 x List.mem_cons_self
    have hl : ∀ y ∈ l, (0 : UInt8) ∉ name y := fun y hy => h0 y (List.mem_cons_of_mem _ hy)
    obtain ⟨hnot, hnd'⟩ := List.nodup_cons.mp hnd
    by_cases hs : isName s (name x) = true
    · have he := (isName_iff hx).mp hs
      rw [List.find?_cons_of_pos (by simpa using hs)]
      constructor
      · intro h
        obtain rfl := Option.some.inj h
        exact ⟨List.mem_cons_self, he.symm⟩
      · rintro ⟨ha, hn⟩
        rcases List.mem_cons.mp ha with rfl | ha
        · rfl
        · exact absurd (List.mem_map.mpr ⟨a, ha, hn.trans he⟩) hnot
    · have hne : name x ≠ s := fun he => hs ((isName_iff hx).mpr he.symm)
      rw [List.find?_cons_of_neg (by simpa using hs), ih hl hnd']
      constructor
      · rintro ⟨ha, hn⟩
        exact ⟨List.mem_cons_of_mem _ ha, hn⟩
      · rintro ⟨ha, hn⟩
        rcases List.mem_cons.mp ha with rfl | ha
        · exact absurd hn hne
        · exact ⟨ha, hn⟩

theorem algs_name_nul (haveHmac : Bool) : ∀ a ∈ algs haveHmac, (0 : UInt8) ∉ a.name := by
  cases haveHmac <;> decide

theorem algs_name_nodup (haveHmac : Bool) : ((algs haveHmac).map Alg.name).Nodup := by
  cases haveHmac <;> decide

/-- Looking an algorithm up finds the row of that name. -/
theorem lookupAlg_eq_some_iff {haveHmac : Bool} {s : Bytes} {a : Alg} :
    lookupAlg haveHmac s = some a ↔ a ∈ algs haveHmac ∧ a.name = s :=
  find_isName_iff (algs_name_nul haveHmac) (algs_name_nodup haveHmac)

theorem lookupAlg_name {haveHmac : Bool} {a : Alg} (h : a ∈ algs haveHmac) :
    lookupAlg haveHmac a.name = some a := lookupAlg_eq_some_iff.mpr ⟨h, rfl⟩

/-- Algorithms are told apart by their names. -/
theorem algs_name_inj {haveHmac : Bool} {a b : Alg} (ha : a ∈ algs haveHmac)
    (hb : b ∈ algs haveHmac) (h : a.name = b.name) : a = b := by
  have hfound := lookupAlg_name hb
  rw [← h, lookupAlg_name ha] at hfound
  exact Option.some.inj hfound

/-- No algorithm has an empty name, and none is called `none`. -/
theorem algs_name_ne (haveHmac : Bool) :
    ∀ a ∈ algs haveHmac, a.name ≠ [] ∧ a.name ≠ ascii "none" := by
  cases haveHmac <;> decide

/-- Looking an EC curve up finds the row of that `crv`. -/
theorem lookupEcCurve_eq_some_iff {s : Bytes} {c : EcCurve} :
    lookupEcCurve s = some c ↔ c ∈ ecCurves ∧ c.jwkCrv = s :=
  find_isName_iff (by decide) (by decide)

/-- Looking an OKP curve up finds the row of that `crv`. -/
theorem lookupOkpCurve_eq_some_iff {s : Bytes} {c : OkpCurve} :
    lookupOkpCurve s = some c ↔ c ∈ okpCurves ∧ c.jwkCrv = s :=
  find_isName_iff (by decide) (by decide)

/-! ## 4. The reverse scans

A row of a curve table is also determined by its OpenSSL column, so going from a row to a
handle and back is the identity. -/

/-- A scan with a test that at most one row passes finds that row. -/
theorem find_iff_of_unique {α : Type} {p : α → Bool} {l : List α}
    (hu : ∀ c ∈ l, ∀ c' ∈ l, p c = true → p c' = true → c = c') {c : α} :
    l.find? p = some c ↔ c ∈ l ∧ p c = true := by
  constructor
  · intro h
    exact ⟨List.mem_of_find?_eq_some h, List.find?_some h⟩
  · rintro ⟨hc, hp⟩
    cases hf : l.find? p with
    | none => exact absurd hp (List.find?_eq_none.mp hf c hc)
    | some c' => rw [hu c' (List.mem_of_find?_eq_some hf) c hc (List.find?_some hf) hp]

/-- A scan by a column without repetition finds the row with that entry. -/
theorem find_column_iff {α β : Type} [BEq β] [LawfulBEq β] {column : α → β} {l : List α}
    (hinj : ∀ c ∈ l, ∀ c' ∈ l, column c = column c' → c = c') {b : β} {c : α} :
    l.find? (fun c => column c == b) = some c ↔ c ∈ l ∧ column c = b := by
  rw [find_iff_of_unique, beq_iff_eq]
  intro c hc c' hc' hb hb'
  exact hinj c hc c' hc' ((beq_iff_eq.mp hb).trans (beq_iff_eq.mp hb').symm)

/-- A curve has one ECDSA algorithm. -/
theorem algs_curve_inj {haveHmac : Bool} : ∀ a ∈ algs haveHmac, ∀ a' ∈ algs haveHmac,
    a.ecCurve = a'.ecCurve → a.ecCurve.isSome = true → a = a' := by
  cases haveHmac <;> decide

/-- There is one algorithm for Edwards keys. -/
theorem algs_eddsa_unique {haveHmac : Bool} : ∀ a ∈ algs haveHmac, ∀ a' ∈ algs haveHmac,
    a.family = .eddsa → a'.family = .eddsa → a = a' := by
  cases haveHmac <;> decide

theorem ecCurves_osslName_inj : ∀ c ∈ ecCurves, ∀ c' ∈ ecCurves,
    c.osslName = c'.osslName → c = c' := by decide

theorem okpCurves_nid_inj : ∀ c ∈ okpCurves, ∀ c' ∈ okpCurves, c.nid = c'.nid → c = c' := by
  decide

/-- The OKP curves are the two Edwards curves. -/
theorem okpCurves_nid : ∀ c ∈ okpCurves, c.nid = .ed25519 ∨ c.nid = .ed448 := by decide

section Reverse

variable {PKey : Type} {O : Ossl PKey} {pkey : PKey}

theorem ecCurveFromPkey_eq_some_iff {c : EcCurve} :
    ecCurveFromPkey O pkey = some c ↔ c ∈ ecCurves ∧ O.groupName pkey = some c.osslName := by
  unfold ecCurveFromPkey
  cases O.groupName pkey with
  | none => simp
  | some name =>
    dsimp only
    rw [find_column_iff ecCurves_osslName_inj, Option.some.injEq, eq_comm (a := name)]

theorem okpCurveFromPkey_eq_some_iff {c : OkpCurve} :
    okpCurveFromPkey O pkey = some c ↔ c ∈ okpCurves ∧ O.baseId pkey = c.nid := by
  unfold okpCurveFromPkey
  rw [find_column_iff okpCurves_nid_inj, eq_comm (a := c.nid)]

end Reverse

end NxeJwx
